import CoUringWeb.Json.ParserComplete
import CoUringWeb.Json.ParserSound

/-!
# The turns of the loop of `parseArray`

`arrayLoop_eq_turns` says that the loop of the parser is its turns, one after another.

After a nested array the next turn starts one byte too late: `parseArray` has stepped over the
closing bracket already, and its caller does so again.  So all bytes of an array are accounted for
exactly when none of its elements is an array.
-/

namespace CoUringWeb

namespace JsonParser

open Machine JsonSyntax Exceptions

variable {δ : Type}

/-! ## Turns -/

/-- The item is a nested array. -/
def ArrayItem.IsArray (item : ArrayItem δ) : Prop := ∃ data, item = .element (.jsonArray data)

/-- The byte at `i` is part of what the turn is for: white space, a comma, or an element. -/
def ArrayTurn.Covers (turn : ArrayTurn δ) (view : Bytes) (i : ℕ) : Prop :=
  turn.start ≤ i ∧ i < turn.stop ∧
    match turn.item with
    | .space => ∃ c ∈ view[i]?, isWs c
    | .comma => view[i]? = some (ch ',')
    | .element _ => True
    | .close => False

/-- A turn that returns. -/
structure ArrayTurn.Returned (turn : ArrayTurn δ) (view : Bytes) : Prop where
  lt : turn.start < turn.stop
  next : turn.next = turn.stop ∧ ¬ turn.item.IsArray ∨ turn.next = turn.stop + 1 ∧ turn.item.IsArray
  covers : turn.item.isClose = false → ∀ i, turn.start ≤ i → i < turn.stop → turn.Covers view i
  close : turn.item.isClose = true → turn.stop = turn.start + 1

/-- A turn on one byte that is not an element. -/
theorem returned_byte {view : Bytes} {item : ArrayItem δ} {k : ℕ} (hitem : item.elements = [])
    (hcovers : item.isClose = false → ArrayTurn.Covers ⟨item, k, k + 1, k + 1⟩ view k) :
    ArrayTurn.Returned ⟨item, k, k + 1, k + 1⟩ view where
  lt := Nat.lt_succ_self k
  next := by
    refine Or.inl ⟨rfl, ?_⟩
    rintro ⟨data, rfl⟩
    cases hitem
  covers hclose i hi hi' := by
    obtain rfl : i = k := by
      dsimp only at hi hi'
      omega
    exact hcovers hclose
  close _ := rfl

theorem returned_element {view : Bytes} {p : JsonPtr δ} {k stop : ℕ} (hlt : k < stop)
    (hp : ∀ data, p ≠ .jsonArray data) :
    ArrayTurn.Returned ⟨.element p, k, stop, stop⟩ view where
  lt := hlt
  next := Or.inl ⟨rfl, fun ⟨data, hdata⟩ => hp data (by cases hdata; rfl)⟩
  covers _ i hi hi' := ⟨hi, hi', trivial⟩
  close h := by cases h

/-- What the turns append to `vec`. -/
def turnElements (turns : List (ArrayTurn δ)) : List (JsonPtr δ) :=
  turns.flatMap fun turn => turn.item.elements

variable [StreamDouble δ]

/-- The turns of the loop, and the index it leaves. -/
def arrayTurns (view : Bytes) : ℕ → ℕ → Bool → Except JsonError (List (ArrayTurn δ) × ℕ)
  | 0, _, _ => .error .fuel
  | fuel + 1, start, endByComma => do
    let turn ← arrayTurn view fuel start endByComma
    if turn.item.isClose then return ([turn], turn.next)
    let (turns, j) ← arrayTurns view fuel turn.next (turn.item.endByComma endByComma)
    return (turn :: turns, j)

/-- The turns of the call of `parseArray` at index `k`. -/
def arrayScan (view : Bytes) (k : ℕ) : Except JsonError (List (ArrayTurn δ) × ℕ) :=
  arrayTurns view (2 * view.length + 1) (k + 1) false

variable {view : Bytes} {fuel k j : ℕ} {endByComma : Bool}

/-- The loop of the parser is its turns. -/
theorem arrayLoop_eq_turns (acc : List (JsonPtr δ)) :
    arrayLoop view fuel k acc endByComma = (do
      let r ← arrayTurns view fuel k endByComma
      return (acc ++ turnElements r.1, r.2)) := by
  induction fuel generalizing k acc endByComma with
  | zero => rw [arrayLoop_zero]; rfl
  | succ fuel ih =>
    rw [arrayLoop_succ, arrayTurns]
    cases (arrayTurn view fuel k endByComma : Except JsonError (ArrayTurn δ)) with
    | error e => rfl
    | ok turn =>
      rw [ok_bind, ok_bind]
      cases hclose : turn.item.isClose with
      | true => simp [turnElements]
      | false =>
        simp only [Bool.false_eq_true, if_false]
        rw [ih]
        cases (arrayTurns view fuel turn.next (turn.item.endByComma endByComma) :
            Except JsonError (List (ArrayTurn δ) × ℕ)) with
        | error e => rfl
        | ok r => simp [bind, Except.bind, pure, Except.pure, turnElements]

/-! ## What a turn finds -/

/-- The parser of a value steps over at least one byte. -/
theorem At.lt_of_accepts {v : Value} {u : Bytes} {stop : ℕ} (hat : At view k (v.text ++ u))
    (hv : Accepts v u) (hstop : At view stop u) : k < stop := by
  obtain ⟨c, s, htext, -⟩ := accepts_head hv
  have hlen := hat.length
  have hlen' := hstop.length
  rw [htext, List.length_append, List.length_cons] at hlen
  omega

theorem numValue_ne_jsonArray (tok : Bytes) (data : List (JsonPtr δ)) :
    numValue tok ≠ .jsonArray data := by
  rw [numValue]
  split <;> simp

theorem parsed_eq_jsonArray_iff (v : Value) :
    (∃ data : List (JsonPtr δ), (if isNullValue v then .nullptr else parsed v) = .jsonArray data) ↔
      v.isArr = true := by
  cases v with
  | num tok => simp [isNullValue, parsed, Value.isArr, numValue_ne_jsonArray]
  | _ => simp [isNullValue, parsed, Value.isArr]

theorem arrayTurn_eq_ok {turn : ArrayTurn δ} (h : arrayTurn view fuel k endByComma = .ok turn) :
    turn.start = k ∧ turn.Returned view := by
  obtain ⟨s, hat⟩ : ∃ s, At view k s := ⟨_, (lt_of_arrayTurn h).le, rfl⟩
  obtain ⟨harray, -, hmap, -⟩ := sound (δ := δ) view fuel
  cases arrayTurn_sound harray hmap hat h with
  | space hc =>
    exact ⟨rfl, returned_byte rfl fun _ => ⟨le_rfl, Nat.lt_succ_self k, _, hat.getElem?, hc⟩⟩
  | comma => exact ⟨rfl, returned_byte rfl fun _ => ⟨le_rfl, Nat.lt_succ_self k, hat.getElem?⟩⟩
  | close => exact ⟨rfl, returned_byte rfl fun hclose => by cases hclose⟩
  | @value v u stop harr hv hstop =>
    have hp := (parsed_eq_jsonArray_iff (δ := δ) v).not.2 (by simp [harr])
    exact ⟨rfl, returned_element (hat.lt_of_accepts hv hstop) (not_exists.1 hp)⟩
  | array hes hstop =>
    exact ⟨rfl, hat.lt_of_accepts hes hstop, Or.inr ⟨rfl, _, rfl⟩,
      fun _ i hi hi' => ⟨hi, hi', trivial⟩, fun h => by cases h⟩
  | unclosed hstop =>
    have hlt := lt_of_arrayTurn h
    have hend := hstop.eq_nil_iff.1 rfl
    exact ⟨rfl, returned_element (by omega) (by simp)⟩

/-! ## The bytes of an array -/

/-- Each turn starts where the one before it says, and the last one closes the array. -/
def Chained : ℕ → List (ArrayTurn δ) → ℕ → Prop
  | _, [], _ => False
  | i, turn :: turns, j =>
    turn.start = i ∧
      if turn.item.isClose then turns = [] ∧ turn.next = j else Chained turn.next turns j

/-- Every byte between the brackets at `k` and `j - 1` is part of exactly one turn, and each turn
starts right behind the one before it. -/
structure NoneSkipped (view : Bytes) (turns : List (ArrayTurn δ)) (k j : ℕ) : Prop where
  accounted : ∀ i, k < i → i + 1 < j → ∃! turn, turn ∈ turns ∧ turn.Covers view i
  resumes : ∀ turn ∈ turns, turn.next = turn.stop

omit [StreamDouble δ] in
theorem Chained.start_le {turns : List (ArrayTurn δ)} (h : Chained k turns j)
    (hall : ∀ turn ∈ turns, turn.Returned view) : ∀ turn ∈ turns, k ≤ turn.start := by
  induction turns generalizing k with
  | nil => simp
  | cons turn turns ih =>
    obtain ⟨rfl, hrest⟩ := h
    rw [List.forall_mem_cons] at hall
    rw [List.forall_mem_cons]
    refine ⟨le_rfl, fun turn' hturn' => ?_⟩
    split at hrest
    · rw [hrest.1] at hturn'
      cases hturn'
    · have hnext := hall.1.next
      have hlt := hall.1.lt
      have hle := ih hrest hall.2 turn' hturn'
      omega

omit [StreamDouble δ] in
/-- When each turn starts right behind the one before it, their spans are disjoint and leave out no
byte in front of the closing bracket. -/
theorem Chained.accounted {turns : List (ArrayTurn δ)} (h : Chained k turns j)
    (hall : ∀ turn ∈ turns, turn.Returned view) (hresumes : ∀ turn ∈ turns, turn.next = turn.stop)
    {i : ℕ} (hi : k ≤ i) (hij : i + 1 < j) : ∃! turn, turn ∈ turns ∧ turn.Covers view i := by
  induction turns generalizing k with
  | nil => exact absurd h id
  | cons turn turns ih =>
    obtain ⟨rfl, hrest⟩ := h
    rw [List.forall_mem_cons] at hall hresumes
    obtain ⟨hreturned, hall⟩ := hall
    obtain ⟨hnext, hresumes⟩ := hresumes
    split at hrest
    · rename_i hclose
      have hone := hreturned.close hclose
      omega
    · rename_i hclose
      have hstart := hrest.start_le hall
      rcases Nat.lt_or_ge i turn.stop with hlt | hge
      · -- the byte is part of this turn, and the others start behind it
        have hcovers := hreturned.covers (by simpa using hclose) i hi hlt
        refine ⟨turn, ⟨List.mem_cons_self, hcovers⟩, ?_⟩
        rintro turn' ⟨hmem, hcovers'⟩
        rcases List.mem_cons.1 hmem with rfl | hmem
        · rfl
        · have hle := hstart turn' hmem
          have hle' := hcovers'.1
          omega
      · obtain ⟨turn', ⟨hmem, hcovers⟩, hunique⟩ := ih hrest hall hresumes (by omega)
        refine ⟨turn', ⟨List.mem_cons_of_mem _ hmem, hcovers⟩, ?_⟩
        rintro turn'' ⟨hmem'', hcovers''⟩
        rcases List.mem_cons.1 hmem'' with rfl | hmem''
        · have hlt := hcovers''.2.1
          omega
        · exact hunique turn'' ⟨hmem'', hcovers''⟩

theorem arrayTurns_eq_ok {turns : List (ArrayTurn δ)}
    (h : arrayTurns view fuel k endByComma = .ok (turns, j)) :
    Chained k turns j ∧ ∀ turn ∈ turns, turn.Returned view := by
  induction fuel generalizing k endByComma turns with
  | zero => cases h
  | succ fuel ih =>
    rw [arrayTurns] at h
    obtain ⟨turn, hturn, h⟩ := bind_eq_ok.mp h
    obtain ⟨hstart, hreturned⟩ := arrayTurn_eq_ok hturn
    split at h
    · rename_i hclose
      cases h
      exact ⟨⟨hstart, by rw [if_pos hclose]; exact ⟨rfl, rfl⟩⟩, by simpa using hreturned⟩
    · rename_i hclose
      obtain ⟨⟨turns', j'⟩, hturns, h⟩ := bind_eq_ok.mp h
      cases h
      obtain ⟨hchained, hall⟩ := ih hturns
      exact ⟨⟨hstart, by rwa [if_neg hclose]⟩, List.forall_mem_cons.2 ⟨hreturned, hall⟩⟩

theorem noneSkipped_iff {turns : List (ArrayTurn δ)}
    (h : arrayTurns view fuel (k + 1) endByComma = .ok (turns, j)) :
    NoneSkipped view turns k j ↔ ∀ turn ∈ turns, ¬ turn.item.IsArray := by
  obtain ⟨hchained, hall⟩ := arrayTurns_eq_ok h
  have hnext : ∀ turn ∈ turns, turn.next = turn.stop ↔ ¬ turn.item.IsArray := by
    intro turn hturn
    have := (hall turn hturn).next
    constructor
    · intro heq
      rcases this with ⟨-, hnot⟩ | ⟨heq', -⟩
      · exact hnot
      · omega
    · intro hnot
      exact (this.resolve_right fun hskip => hnot hskip.2).1
  rw [← forall₂_congr hnext]
  constructor
  · exact fun hskipped => hskipped.resumes
  · exact fun hresumes =>
      ⟨fun i hi hij => hchained.accounted hall hresumes hi hij, hresumes⟩

/-! ## Arrays without nested arrays -/

/-- No element is an array. -/
def NoArrays : Elems → Prop
  | .close _ => True
  | .elem _ v rest => v.isArr = false ∧ NoArrays rest

theorem noArrays_iff (es : Elems) :
    NoArrays es ↔ ∀ p ∈ (parsedElems es : List (JsonPtr δ)), ∀ data, p ≠ .jsonArray data := by
  cases es with
  | close gap => simp [NoArrays, parsedElems]
  | elem gap v rest =>
    have hv := parsed_eq_jsonArray_iff (δ := δ) v
    rw [NoArrays, parsedElems, List.forall_mem_cons, ← noArrays_iff rest, ← not_exists, hv,
      Bool.not_eq_true]

omit [StreamDouble δ] in
theorem isArray_iff (turns : List (ArrayTurn δ)) :
    (∀ turn ∈ turns, ¬ turn.item.IsArray) ↔
      ∀ p ∈ turnElements turns, ∀ data, p ≠ .jsonArray data := by
  have hitem (item : ArrayItem δ) :
      ¬ item.IsArray ↔ ∀ p ∈ item.elements, ∀ data, p ≠ .jsonArray data := by
    cases item <;> simp [ArrayItem.IsArray]
  simp only [turnElements, List.forall_mem_flatMap, hitem]

/-- A call of `parseArray` that returns is a `[` and the turns of its loop. -/
theorem parseArray_eq_turns {vec : List (JsonPtr δ)}
    (h : parseArray view (fuel + 1) k = .ok (vec, j)) :
    At view k (view.drop k) ∧
      ∃ turns, arrayTurns view fuel (k + 1) false = .ok (turns, j) ∧ vec = turnElements turns := by
  simp only [parseArray, throw_bind, ite_throw_eq_ok, bind_eq_ok] at h
  obtain ⟨c, hc, -, -, h⟩ := h
  rw [arrayLoop_eq_turns] at h
  obtain ⟨⟨turns, j'⟩, hturns, h⟩ := bind_eq_ok.mp h
  cases h
  exact ⟨⟨(lt_of_charAt hc).le, rfl⟩, turns, hturns, rfl⟩

/-- Where `parseArray` returns, its loop skips no byte if and only if the text from `k` on is an
array, of the syntax it reads, of which no element is an array. -/
theorem parseArray_noneSkipped_iff {vec : List (JsonPtr δ)}
    (h : parseArray view (2 * view.length + 2) k = .ok (vec, j)) :
    (∃ turns, arrayScan view k = .ok (turns, j) ∧ vec = turnElements turns ∧
      NoneSkipped view turns k j) ↔
      ∃ es t, view.drop k = (Value.arr es).text ++ t ∧ Accepts (.arr es) t ∧ NoArrays es := by
  obtain ⟨hat, turns, hturns, hvec⟩ := parseArray_eq_turns h
  have hscan : arrayScan view k = .ok (turns, j) := hturns
  have hskipped : NoneSkipped view turns k j ↔ ∀ p ∈ vec, ∀ data, p ≠ .jsonArray data := by
    rw [noneSkipped_iff hturns, isArray_iff, hvec]
  constructor
  · rintro ⟨turns', hturns', -, hnone⟩
    obtain rfl : turns = turns' := by
      rw [hscan] at hturns'
      cases hturns'
      rfl
    obtain ⟨es, t, htext, hes, hparsed, -⟩ := (sound view _).1 hat h
    exact ⟨es, t, htext, hes, (noArrays_iff es).2 (hparsed ▸ hskipped.1 hnone)⟩
  · rintro ⟨es, t, htext, hes, hnone⟩
    have hlen : ((Value.arr es).text ++ t).length ≤ view.length := by
      rw [← htext, List.length_drop]
      omega
    rw [List.length_append] at hlen
    have hrun : ContainerRuns δ view (2 * view.length + 2) k (.arr es) :=
      container_run (.arr es) (2 * view.length + 2) (htext ▸ hat) hes (by omega)
    rw [ContainerRuns, h] at hrun
    cases hrun
    exact ⟨turns, hscan, hvec, hskipped.2 ((noArrays_iff es).1 hnone)⟩

/-- No byte of `[null, true]` is skipped. -/
theorem parseArray_noneSkipped_null_true :
    ∃ turns : List (ArrayTurn Bytes), arrayScan (ascii "[null, true]") 0 = .ok (turns, 12) ∧
      [.nullptr, .jsonBool true] = turnElements turns ∧
        NoneSkipped (ascii "[null, true]") turns 0 12 := by
  have h : (parseArray (ascii "[null, true]") (2 * (ascii "[null, true]").length + 2) 0 :
      Except JsonError (List (JsonPtr Bytes) × ℕ)) = .ok ([.nullptr, .jsonBool true], 12) := rfl
  exact (parseArray_noneSkipped_iff h).2
    ⟨.elem [] .null (.elem (ascii ", ") (.bool true) (.close [])), [], rfl,
      ⟨rfl, trivial, rfl, trivial, rfl⟩, rfl, rfl, trivial⟩

/-- The byte behind a nested array is part of no turn. -/
theorem byte_behind_nested_array_skipped :
    (parseArray (ascii "[[1]x]") (2 * (ascii "[[1]x]").length + 2) 0 :
        Except JsonError (List (JsonPtr Bytes) × ℕ)) = .ok ([.jsonArray [.jsonInteger 1]], 6) ∧
      ∃ turns : List (ArrayTurn Bytes), arrayScan (ascii "[[1]x]") 0 = .ok (turns, 6) ∧
        (¬ ∃ turn ∈ turns, turn.Covers (ascii "[[1]x]") 4) ∧
          ¬ NoneSkipped (ascii "[[1]x]") turns 0 6 := by
  have hturns : (arrayScan (ascii "[[1]x]") 0 : Except JsonError (List (ArrayTurn Bytes) × ℕ)) =
      .ok ([⟨.element (.jsonArray [.jsonInteger 1]), 1, 4, 5⟩, ⟨.close, 5, 6, 6⟩], 6) := rfl
  have hcovers : ¬ ∃ turn ∈ ([⟨.element (.jsonArray [.jsonInteger 1]), 1, 4, 5⟩,
      ⟨.close, 5, 6, 6⟩] : List (ArrayTurn Bytes)), turn.Covers (ascii "[[1]x]") 4 := by
    simp [ArrayTurn.Covers]
  refine ⟨rfl, _, hturns, hcovers, fun h => hcovers ?_⟩
  exact (h.accounted 4 (by decide) (by decide)).exists

end JsonParser

end CoUringWeb
