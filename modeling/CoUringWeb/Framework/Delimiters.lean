import Mathlib.Data.List.Basic

/-!
# Delimited texts

Texts over any alphabet.  A run of symbols that stops at a delimiter stops at one place
(`span_unique`, `append_cons_inj`).

`lines` cuts a text at a terminator of two symbols `cr` and `lf`; it has one entry more than there
are terminators.  A line that shows no `cr` of its own is what stands before the first `cr`
(`eq_of_lines_eq_cons`).

A message is a head of lines and, behind an empty line, a body of any symbols.  Whoever reads a
message line by line up to the first empty line finds one head and one body (`IsMessage.unique`).
-/

namespace Delimiters

universe u

variable {α : Type u} [DecidableEq α] {cr lf : α}

omit [DecidableEq α] in
/-- Two runs of symbols that satisfy `p` end at the same place when symbols that do not follow. -/
theorem span_unique {p : α → Bool} {a b s t : List α} {c d : α} (ha : ∀ x ∈ a, p x)
    (hb : ∀ x ∈ b, p x) (hc : p c = false) (hd : p d = false)
    (h : a ++ c :: s = b ++ d :: t) : a = b ∧ c = d ∧ s = t := by
  induction a generalizing b with
  | nil =>
    cases b with
    | nil => simpa using h
    | cons y b =>
      obtain ⟨rfl, -⟩ := List.cons.inj h
      have := hb c List.mem_cons_self
      rw [hc] at this
      cases this
  | cons x a ih =>
    cases b with
    | nil =>
      obtain ⟨rfl, -⟩ := List.cons.inj h
      have := ha x List.mem_cons_self
      rw [hd] at this
      cases this
    | cons y b =>
      obtain ⟨rfl, htail⟩ := List.cons.inj h
      obtain ⟨rfl, hcd, hst⟩ := ih (fun z hz => ha z (List.mem_cons_of_mem x hz))
        (fun z hz => hb z (List.mem_cons_of_mem x hz)) htail
      exact ⟨rfl, hcd, hst⟩

/-- A symbol outside two prefixes marks the place where both end. -/
theorem append_cons_inj {u v s t : List α} {d : α} (hu : d ∉ u) (hv : d ∉ v)
    (h : u ++ d :: s = v ++ d :: t) : u = v ∧ s = t := by
  have hne : ∀ w : List α, d ∉ w → ∀ x ∈ w, decide (x ≠ d) = true := fun w hw x hx => by
    simpa using ne_of_mem_of_not_mem hx hw
  obtain ⟨huv, -, hst⟩ := span_unique (hne u hu) (hne v hv) (by simp) (by simp) h
  exact ⟨huv, hst⟩

/-! ## Lines -/

/-- The lines of a text; each `cr` with a `lf` after it ends one. -/
def lines (cr lf : α) : List α → List (List α)
  | [] => [[]]
  | [c] => [[c]]
  | c :: d :: rest =>
    if c = cr ∧ d = lf then [] :: lines cr lf rest
    else (lines cr lf (d :: rest)).modifyHead (List.cons c)

theorem lines_ne_nil (text : List α) : lines cr lf text ≠ [] := by
  induction text using lines.induct cr lf with
  | case1 | case2 => simp [lines]
  | case3 c d rest hend ih => rw [lines, if_pos hend]; exact List.cons_ne_nil _ _
  | case4 c d rest hend ih =>
    rw [lines, if_neg hend]
    obtain ⟨l, ls, hlines⟩ := List.exists_cons_of_ne_nil ih
    rw [hlines]
    exact List.cons_ne_nil _ _

/-- A line without `cr` is cut off at its terminator. -/
theorem lines_append {l rest : List α} (hl : cr ∉ l) :
    lines cr lf (l ++ cr :: lf :: rest) = l :: lines cr lf rest := by
  induction l with
  | nil => simp [lines]
  | cons c l ih =>
    rw [List.mem_cons, not_or] at hl
    have hc : c ≠ cr := fun h => hl.1 h.symm
    have hcut : ∀ text, text ≠ [] →
        lines cr lf (c :: text) = (lines cr lf text).modifyHead (List.cons c) := by
      intro text hne
      obtain ⟨d, text, rfl⟩ := List.exists_cons_of_ne_nil hne
      rw [lines, if_neg fun h => hc h.1]
    rw [List.cons_append, hcut _ (by simp), ih hl.2]
    rfl

/-- A text is its first line, or goes on after the terminator of its first line. -/
theorem eq_or_of_lines_eq_cons {text l : List α} {ls : List (List α)}
    (h : lines cr lf text = l :: ls) :
    text = l ∨ ∃ rest, text = l ++ cr :: lf :: rest ∧ lines cr lf rest = ls := by
  induction text using lines.induct cr lf generalizing l with
  | case1 =>
    cases h
    exact Or.inl rfl
  | case2 c =>
    cases h
    exact Or.inl rfl
  | case3 c d rest hend ih =>
    rw [lines, if_pos hend] at h
    obtain ⟨rfl, rfl⟩ := hend
    cases h
    exact Or.inr ⟨rest, rfl, rfl⟩
  | case4 c d rest hend ih =>
    rw [lines, if_neg hend] at h
    cases hlines : lines cr lf (d :: rest) with
    | nil => rw [hlines] at h; cases h
    | cons l' ls' =>
      rw [hlines] at h
      cases h
      rcases ih hlines with htext | ⟨rest', htext, hrest⟩
      · exact Or.inl (by rw [htext])
      · exact Or.inr ⟨rest', by rw [htext, List.cons_append], hrest⟩

/-- The first line of a text with a `cr` in it, when the line has none. -/
theorem eq_of_lines_eq_cons {text l u v : List α} {ls : List (List α)}
    (h : lines cr lf text = l :: ls) (htext : text = u ++ cr :: v) (hl : cr ∉ l) (hu : cr ∉ u) :
    l = u ∧ ∃ rest, v = lf :: rest ∧ lines cr lf rest = ls := by
  subst htext
  rcases eq_or_of_lines_eq_cons h with heq | ⟨rest, heq, hrest⟩
  · exact absurd (heq ▸ List.mem_append_right u List.mem_cons_self) hl
  · obtain ⟨rfl, rfl⟩ := append_cons_inj hu hl heq
    exact ⟨rfl, rest, rfl, hrest⟩

/-! ## Messages -/

omit [DecidableEq α] in
theorem append_terminator (l rest : List α) :
    (l ++ [cr, lf]) ++ rest = l ++ cr :: lf :: rest := by
  simp

/-- A head of lines, each with its terminator, an empty line, and the body behind it. -/
structure IsMessage (cr lf : α) (text : List α) (head : List (List α)) (body : List α) : Prop where
  eq : text = head.flatMap (fun l => l ++ [cr, lf]) ++ cr :: lf :: body
  ne_nil : ∀ l ∈ head, l ≠ []
  notMem : ∀ l ∈ head, cr ∉ l

omit [DecidableEq α] in
/-- The first line of a message whose head is not empty. -/
theorem IsMessage.of_cons {text body l : List α} {head : List (List α)}
    (h : IsMessage cr lf text (l :: head) body) : cr ∉ l ∧ l ≠ [] ∧
      ∃ rest, text = l ++ cr :: lf :: rest ∧ IsMessage cr lf rest head body := by
  refine ⟨h.notMem l List.mem_cons_self, h.ne_nil l List.mem_cons_self, _, ?_, rfl,
    fun l' hl' => h.ne_nil l' (List.mem_cons_of_mem l hl'),
    fun l' hl' => h.notMem l' (List.mem_cons_of_mem l hl')⟩
  rw [h.eq, List.flatMap_cons, List.append_assoc, append_terminator]

omit [DecidableEq α] in
/-- An empty line does not start with a line of a head. -/
theorem not_empty_line {l rest body : List α} (hcr : cr ∉ l) (hne : l ≠ [])
    (h : cr :: lf :: body = l ++ cr :: lf :: rest) : False := by
  obtain ⟨c, l, rfl⟩ := List.exists_cons_of_ne_nil hne
  obtain ⟨rfl, -⟩ := List.cons.inj h
  exact hcr List.mem_cons_self

theorem IsMessage.unique {text body body' : List α} {head head' : List (List α)}
    (h : IsMessage cr lf text head body) (h' : IsMessage cr lf text head' body') :
    head = head' ∧ body = body' := by
  induction head generalizing text head' with
  | nil =>
    have htext : text = cr :: lf :: body := h.eq
    cases head' with
    | nil => simpa using htext.symm.trans h'.eq
    | cons l' head' =>
      obtain ⟨hcr, hne, rest, heq, -⟩ := h'.of_cons
      exact (not_empty_line hcr hne (htext.symm.trans heq)).elim
  | cons l head ih =>
    obtain ⟨hcr, hne, rest, heq, hrest⟩ := h.of_cons
    cases head' with
    | nil => exact (not_empty_line hcr hne (h'.eq.symm.trans heq)).elim
    | cons l' head' =>
      obtain ⟨hcr', -, rest', heq', hrest'⟩ := h'.of_cons
      obtain ⟨rfl, htail⟩ := append_cons_inj hcr hcr' (heq.symm.trans heq')
      obtain ⟨-, rfl⟩ := List.cons.inj htail
      obtain ⟨rfl, rfl⟩ := ih hrest hrest'
      exact ⟨rfl, rfl⟩

end Delimiters
