import CoUringWeb.Framework.JsonStrings
import CoUringWeb.Json.RoundTrip

/-!
# Strings, printed and read

`parseString` on what `dumpString` prints, and on any literal with escapes.

`dumpString` has an escape for five control characters and prints the others as they are, where
`parseString` refuses them: a string comes back exactly when it is `Printable`
(`parseString_dumpString_iff`).  `parseString` encodes each `\u` escape by itself, so that the two
halves of a surrogate pair become three bytes each: a literal is read as what it denotes exactly
when no escape is a surrogate (`parseString_denotes_iff`).
-/

namespace CoUringWeb

namespace JsonParser

open Machine JsonSyntax

/-! ## What `dumpString` prints -/

/-- The printer leaves a control character that has no escape of two characters as it is. -/
theorem mem_dumpChar_of_control : ∀ c : UInt8,
    c < 0x20 → c ∉ [8, 12, ch '\n', ch '\r', ch '\t'] → c ∈ dumpChar c := by
  decide +kernel

/-- Only a printable string is printed as a literal. -/
theorem printable_of_dumpString_eq {s : Bytes} {items : List StrItem}
    (hitems : ItemsWellFormed items) {t t' : Bytes}
    (h : dumpString s ++ t = strText items ++ t') (ht : t.length = t'.length) : Printable s := by
  intro c hc hcontrol
  by_contra hmem
  obtain ⟨htext, -⟩ := List.append_inj' h ht
  have hbody : s.flatMap dumpChar ++ [ch '"'] = itemsText items ++ [ch '"'] :=
    (List.cons.inj htext).2
  have hbad : c ∈ itemsText items := by
    rw [← List.append_cancel_right hbody]
    exact List.mem_flatMap.2 ⟨c, hc, mem_dumpChar_of_control c hcontrol hmem⟩
  exact absurd hcontrol (not_lt.2 (le_of_mem_itemsText hitems hbad))

/-- A printed string is read back if and only if it has no control character other than the five
that are escaped. -/
theorem parseString_dumpString_iff {view s t : Bytes} {k : ℕ} (hat : At view k (dumpString s ++ t))
    (ht : 2 ≤ t.length) :
    parseString view k = .ok (s, k + (dumpString s).length) ↔ Printable s := by
  constructor
  · intro h
    have hlen := hat.length
    rw [List.length_append] at hlen
    rcases parseString_eq_ok hat h with ⟨items, t', hitems, htext, -, -, hend⟩ | hend
    · have hlen' := hend.length
      exact printable_of_dumpString_eq hitems htext (by omega)
    · have hlen' := hend.length
      rw [List.length_nil] at hlen'
      omega
  · intro hs
    rw [← strText_map] at hat ⊢
    have hne : t ≠ [] := List.ne_nil_of_length_pos (by omega)
    rw [parseString_run hat (charItem_wellFormed hs) hne fun _ => ht, itemsBytes_map]

theorem parseString_dumpString_iff_quote :
    parseString (dumpString (ascii "a\"\n") ++ ascii ",]") 0 =
        .ok (ascii "a\"\n", 0 + (dumpString (ascii "a\"\n")).length) ↔
      Printable (ascii "a\"\n") :=
  parseString_dumpString_iff At.zero (by decide)

/-- The control character 1, which `parse` makes of an escape, is printed as it is and refused. -/
theorem control_not_read_back :
    ∃ s t : Bytes, 2 ≤ t.length ∧
      parseString (strText [.uni (ch '0') (ch '0') (ch '0') (ch '1')] ++ t) 0 = .ok (s, 8) ∧
      parseString (dumpString s ++ t) 0 ≠ .ok (s, (dumpString s).length) :=
  ⟨[1], ascii ",]", by decide, by decide, by decide⟩

/-! ## Escapes -/

/-- The bytes for half of a surrogate pair. -/
theorem length_itemBytes_of_surrogate {i : StrItem} (hi : i.WellFormed) (h : ¬ i.NotSurrogate) :
    (itemBytes i).length = 3 := by
  cases i with
  | raw c => exact absurd trivial h
  | esc c => exact absurd trivial h
  | uni a b c d =>
    rw [StrItem.NotSurrogate, not_not] at h
    rw [itemBytes, hex4_eq_codeUnit hi, Option.getD_some, fromUnicode, if_neg (by omega),
      if_neg (by omega), if_pos (by omega)]
    rfl

/-- `parseString` appends no fewer bytes than the literal denotes, and more when it has a
surrogate. -/
theorem length_le_itemsBytes {items : List StrItem} {s : Bytes} (h : Denotes items s)
    (hitems : ItemsWellFormed items) :
    s.length ≤ (itemsBytes items).length ∧
      (s.length = (itemsBytes items).length → ∀ i ∈ items, i.NotSurrogate) := by
  induction h with
  | nil => simp
  | @single i items s hi h ih =>
    obtain ⟨hle, hall⟩ := ih fun j hj => hitems j (List.mem_cons_of_mem _ hj)
    have hhead := itemBytes_eq_denote (hitems i List.mem_cons_self) hi
    rw [itemsBytes_cons, hhead, List.length_append, List.length_append, List.forall_mem_cons]
    exact ⟨by omega, fun heq => ⟨hi, hall (by omega)⟩⟩
  | @pair i j n items s hpair h ih =>
    obtain ⟨hle, -⟩ := ih fun x hx => hitems x (List.mem_cons_of_mem _ (List.mem_cons_of_mem _ hx))
    have hfirst := length_itemBytes_of_surrogate (hitems i (by simp)) hpair.surrogates.1
    have hsecond := length_itemBytes_of_surrogate (hitems j (by simp)) hpair.surrogates.2
    rw [itemsBytes_cons, itemsBytes_cons, List.length_append, List.length_append,
      List.length_append, hpair.length_utf8, hfirst, hsecond]
    exact ⟨by omega, fun heq => by omega⟩

/-- A literal is read as the bytes it denotes if and only if none of its escapes is a surrogate. -/
theorem parseString_denotes_iff {view s t : Bytes} {items : List StrItem} {k : ℕ}
    (hat : At view k (strText items ++ t)) (ht : 2 ≤ t.length) (hitems : ItemsWellFormed items)
    (hs : Denotes items s) :
    parseString view k = .ok (s, k + (strText items).length) ↔ ∀ i ∈ items, i.NotSurrogate := by
  have hne : t ≠ [] := List.ne_nil_of_length_pos (by omega)
  rw [parseString_run hat hitems hne fun _ => ht, Except.ok.injEq, Prod.mk.injEq, and_iff_left rfl]
  constructor
  · rintro rfl
    exact (length_le_itemsBytes hs hitems).2 rfl
  · intro hall
    rw [hs.eq_itemsDenote hall, itemsBytes_eq_denote hitems hall]

/-- The literal `"aé\n"` with `é` as an escape. -/
def accentLiteral : List StrItem :=
  [.raw (ch 'a'), .uni (ch '0') (ch '0') (ch 'E') (ch '9'), .esc (ch 'n')]

theorem parseString_denotes_iff_accent :
    parseString (strText accentLiteral ++ ascii "]]") 0 =
        .ok ([ch 'a', 0xC3, 0xA9, 10], 0 + (strText accentLiteral).length) ↔
      ∀ i ∈ accentLiteral, i.NotSurrogate := by
  have hdenotes : Denotes accentLiteral [ch 'a', 0xC3, 0xA9, 10] :=
    .single trivial (.single (by decide) (.single trivial .nil))
  exact parseString_denotes_iff At.zero (by decide) (by decide +kernel) hdenotes

/-- The escapes of U+1F600 are read as six bytes, each half of the pair by itself. -/
theorem pair_read_as_halves :
    ∃ (items : List StrItem) (s t : Bytes), ItemsWellFormed items ∧ Denotes items s ∧
      2 ≤ t.length ∧ parseString (strText items ++ t) 0 ≠ .ok (s, (strText items).length) := by
  refine ⟨[.uni (ch 'd') (ch '8') (ch '3') (ch 'd'), .uni (ch 'd') (ch 'e') (ch '0') (ch '0')],
    [0xF0, 0x9F, 0x98, 0x80], ascii "]]", by decide +kernel, ?_, by decide, by decide⟩
  exact .pair ⟨by decide, by decide⟩ .nil

end JsonParser

end CoUringWeb
