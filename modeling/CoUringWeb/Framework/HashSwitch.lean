import Mathlib.Data.List.Nodup

/-!
# A switch on hash values

`select` is a switch on values, `selectHash` the same switch on their hash values.  When the labels
have distinct hash values, the two differ on the values that share a hash value with a label and are
no label, and nowhere else (`selectHash_eq_select_iff`).
-/

namespace HashSwitch

variable {α β τ : Type*}

/-- The value of the first case whose label has the hash value of `x`. -/
def selectHash [DecidableEq β] (hash : α → β) (cases : List (α × τ)) (default : τ) (x : α) : τ :=
  ((cases.find? fun c => hash c.1 = hash x).map Prod.snd).getD default

/-- The value of the first case labelled `x`. -/
def select [DecidableEq α] (cases : List (α × τ)) (default : τ) (x : α) : τ :=
  selectHash id cases default x

section

variable [DecidableEq β] {hash : α → β} {cases : List (α × τ)} {default : τ} {x : α}

theorem selectHash_nil : selectHash hash [] default x = default := rfl

theorem selectHash_cons {label : α} {value : τ} :
    selectHash hash ((label, value) :: cases) default x =
      if hash label = hash x then value else selectHash hash cases default x := by
  by_cases h : hash label = hash x <;> simp [selectHash, h]

theorem selectHash_of_mem (hnodup : (cases.map fun c => hash c.1).Nodup) {c : α × τ}
    (hc : c ∈ cases) (hx : hash c.1 = hash x) : selectHash hash cases default x = c.2 := by
  cases hfind : cases.find? fun c' => hash c'.1 = hash x with
  | none => simpa [hx] using List.find?_eq_none.1 hfind c hc
  | some c' =>
    have hlabel : hash c'.1 = hash x := by simpa using List.find?_some hfind
    have hsame : c' = c :=
      List.inj_on_of_nodup_map hnodup (List.mem_of_find?_eq_some hfind) hc (hlabel.trans hx.symm)
    rw [selectHash, hfind, hsame]
    rfl

theorem selectHash_of_notMem (h : ∀ c ∈ cases, hash c.1 ≠ hash x) :
    selectHash hash cases default x = default := by
  have hfind : cases.find? (fun c => hash c.1 = hash x) = none :=
    List.find?_eq_none.2 fun c hc => by simpa using h c hc
  rw [selectHash, hfind]
  rfl

theorem selectHash_eq_or : selectHash hash cases default x = default ∨
    ∃ c ∈ cases, selectHash hash cases default x = c.2 := by
  cases hfind : cases.find? fun c => hash c.1 = hash x with
  | none => exact Or.inl (by rw [selectHash, hfind]; rfl)
  | some c =>
    exact Or.inr ⟨c, List.mem_of_find?_eq_some hfind, by rw [selectHash, hfind]; rfl⟩

end

/-- The switch on hash values takes `x` for what it is when `x` is a label or shares its hash value
with none. -/
theorem selectHash_eq_select_iff [DecidableEq α] [DecidableEq β] {hash : α → β}
    {cases : List (α × τ)} {default : τ} {x : α}
    (hnodup : (cases.map fun c => hash c.1).Nodup) (hdefault : ∀ c ∈ cases, c.2 ≠ default) :
    selectHash hash cases default x = select cases default x ↔
      (∃ c ∈ cases, c.1 = x) ∨ ∀ c ∈ cases, hash c.1 ≠ hash x := by
  by_cases hlabel : ∃ c ∈ cases, c.1 = x
  · obtain ⟨c, hc, rfl⟩ := hlabel
    have hlabels : (cases.map fun c => id c.1).Nodup := by
      refine List.Nodup.of_map hash ?_
      rwa [List.map_map]
    rw [select, selectHash_of_mem hlabels hc rfl, selectHash_of_mem hnodup hc rfl]
    exact ⟨fun _ => Or.inl ⟨c, hc, rfl⟩, fun _ => rfl⟩
  · have hother : ∀ c ∈ cases, id c.1 ≠ id x := fun c hc heq => hlabel ⟨c, hc, heq⟩
    rw [select, selectHash_of_notMem hother, or_iff_right hlabel]
    constructor
    · intro h c hc hx
      rw [selectHash_of_mem hnodup hc hx] at h
      exact hdefault c hc h
    · intro h
      exact selectHash_of_notMem h

end HashSwitch
