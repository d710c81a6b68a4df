import Mathlib.Data.List.Basic

/-!
# Runs of a labelled transition function

A system is a partial step function `step : σ → α → Option σ`: `step s a` is the state after the
action `a`, and `none` says that `a` is not enabled in `s`.  Everything the environment decides
(the order of the parties' steps, results of outside calls, clock readings) is part of the action,
so a run is a list of actions and every interleaving is one such list.

The rules below carry a property of one step to whole runs.  `run_invariant` is the plain
induction; `run_invariant_of_always` is the same induction for the runs whose steps all meet a
condition on the state before the step (`Always`); `always_of_run` is its converse, for a
violation that leaves a permanent trace, and `always_of_lt` the case of a bound that is not passed;
`exists_step_of_run` finds the step of a run that brings a property about;
`run_simulation` matches the runs of one system by runs of another, and `run_stutter` step by step
or not at all; `run_replicate` pumps a cycle.

The last part is about total machines that answer each call.  Two of them answer every sequence of
calls alike when a relation between their states is kept by each call with equal answers
(`outputs_eq_of_simulation`).  A system whose steps give out calls with their answers (`emitted`) is
compared with such a machine by `outputs_eq_iff_always`.
-/

namespace Transition

variable {σ α : Type*} (step : σ → α → Option σ)

/-- The state after a list of actions, `none` when one of them is not enabled. -/
def run : σ → List α → Option σ
  | s, [] => some s
  | s, a :: as => (step s a).bind fun t => run t as

/-- Every step of the run `as` from `s` is taken in a state that meets the condition `P`. -/
def Always (P : σ → α → Prop) : σ → List α → Prop
  | _, [] => True
  | s, a :: as => P s a ∧ ∀ t, step s a = some t → Always P t as

instance decidableAlways {P : σ → α → Prop} [∀ s a, Decidable (P s a)] :
    ∀ (s : σ) (as : List α), Decidable (Always step P s as)
  | _, [] => .isTrue trivial
  | s, a :: as =>
    have : Decidable (∀ t, step s a = some t → Always step P t as) :=
      match h : step s a with
      | none => .isTrue fun _ ht => by cases ht
      | some u =>
        match decidableAlways u as with
        | .isTrue hu => .isTrue fun _ ht => by cases ht; exact hu
        | .isFalse hu => .isFalse fun hall => hu (hall u rfl)
    inferInstanceAs (Decidable (P s a ∧ ∀ t, step s a = some t → Always step P t as))

variable {step}

@[simp] theorem run_nil (s : σ) : run step s [] = some s := rfl

theorem run_cons {s t : σ} {a : α} {as : List α} :
    run step s (a :: as) = some t ↔ ∃ u, step s a = some u ∧ run step u as = some t := by
  simp only [run, Option.bind_eq_some_iff]

theorem run_append {s t : σ} {as bs : List α} :
    run step s (as ++ bs) = some t ↔ ∃ u, run step s as = some u ∧ run step u bs = some t := by
  induction as generalizing s with
  | nil => simp
  | cons a as ih =>
    simp only [List.cons_append, run_cons, ih]
    constructor
    · rintro ⟨v, hv, u, hu, ht⟩
      exact ⟨u, ⟨v, hv, hu⟩, ht⟩
    · rintro ⟨u, ⟨v, hv, hu⟩, ht⟩
      exact ⟨v, hv, u, hu, ht⟩

theorem run_singleton {s t : σ} {a : α} : run step s [a] = some t ↔ step s a = some t := by
  simp [run_cons]

/-! ## The invariant rules -/

/-- What every step preserves, every run preserves. -/
theorem run_invariant {I : σ → Prop}
    (hstep : ∀ s a t, I s → step s a = some t → I t)
    {s t : σ} {as : List α} (hs : I s) (hrun : run step s as = some t) : I t := by
  induction as generalizing s with
  | nil =>
    cases hrun
    exact hs
  | cons a as ih =>
    obtain ⟨u, hu, ht⟩ := run_cons.1 hrun
    exact ih (hstep s a u hs hu) ht

/-- What every step that meets the condition `P` preserves, every run of such steps preserves. -/
theorem run_invariant_of_always {I : σ → Prop} {P : σ → α → Prop}
    (hstep : ∀ s a t, I s → P s a → step s a = some t → I t)
    {s t : σ} {as : List α} (hs : I s) (hP : Always step P s as)
    (hrun : run step s as = some t) : I t := by
  induction as generalizing s with
  | nil =>
    cases hrun
    exact hs
  | cons a as ih =>
    obtain ⟨u, hu, ht⟩ := run_cons.1 hrun
    exact ih (hstep s a u hs hP.1 hu) (hP.2 u hu) ht

/-- A property that holds after a run and not before is brought about by one of its steps. -/
theorem exists_step_of_run {P : σ → Prop} {s t : σ} {as : List α} (hs : ¬ P s)
    (hrun : run step s as = some t) (ht : P t) :
    ∃ before a after u v, as = before ++ a :: after ∧ run step s before = some u ∧ ¬ P u ∧
      step u a = some v ∧ P v ∧ run step v after = some t := by
  induction as generalizing s with
  | nil =>
    cases hrun
    exact absurd ht hs
  | cons a as ih =>
    obtain ⟨v, hv, hvt⟩ := run_cons.1 hrun
    by_cases hP : P v
    · exact ⟨[], a, as, s, v, rfl, rfl, hs, hv, hP, hvt⟩
    · obtain ⟨before, b, after, u, w, rfl, hu, hnot, hw, hPw, hwt⟩ := ih hP hvt
      exact ⟨a :: before, b, after, u, w, rfl, run_cons.2 ⟨v, hv, hu⟩, hnot, hw, hPw, hwt⟩

/-- If a step outside the condition `P` leaves a trace `B` that no later step removes, then a run
that ends without the trace has only steps that meet `P`. -/
theorem always_of_run {I B : σ → Prop} {P : σ → α → Prop}
    (hinv : ∀ s a t, I s → step s a = some t → I t)
    (hbad : ∀ s a t, I s → ¬ P s a → step s a = some t → B t)
    (hkeep : ∀ s a t, B s → step s a = some t → B t)
    {s t : σ} {as : List α} (hs : I s) (hrun : run step s as = some t) (ht : ¬ B t) :
    Always step P s as := by
  induction as generalizing s with
  | nil => trivial
  | cons a as ih =>
    obtain ⟨u, hu, hut⟩ := run_cons.1 hrun
    refine ⟨?_, fun v hv => ?_⟩
    · by_contra hP
      exact ht (run_invariant hkeep (hbad s a u hs hP hu) hut)
    · cases hu.symm.trans hv
      exact ih (hinv s a u hs hu) hut

/-- If no step lowers the measure `μ`, an invariant of the states below a bound holds all along a
run that ends below it. -/
theorem always_of_lt {I : σ → Prop} {P : σ → α → Prop} {μ : σ → ℕ} {n : ℕ}
    (hgrow : ∀ s a t, step s a = some t → μ s ≤ μ t)
    (hinv : ∀ s a t, I s → step s a = some t → μ t < n → I t)
    (hP : ∀ s a, I s → μ s < n → P s a)
    {s t : σ} {as : List α} (hs : I s) (hrun : run step s as = some t) (ht : μ t < n) :
    Always step P s as := by
  refine always_of_run (I := fun u => μ u < n → I u) (B := fun u => n ≤ μ u) ?_ ?_
    (fun u a v hu hv => Nat.le_trans hu (hgrow u a v hv)) (fun _ => hs) hrun (Nat.not_le.2 ht)
  · intro u a v hu hv hlt
    exact hinv u a v (hu (Nat.lt_of_le_of_lt (hgrow u a v hv) hlt)) hv hlt
  · intro u a v hu hnot hv
    by_contra hlt
    have hlt' : μ u < n := Nat.lt_of_le_of_lt (hgrow u a v hv) (Nat.not_le.1 hlt)
    exact hnot (hP u a (hu hlt') hlt')

theorem always_of_forall {P : σ → α → Prop} (h : ∀ s a, P s a) (s : σ) (as : List α) :
    Always step P s as := by
  induction as generalizing s with
  | nil => trivial
  | cons a as ih => exact ⟨h s a, fun t _ => ih t⟩

/-- A condition on the actions alone. -/
theorem always_of_mem {P : α → Prop} {as : List α} (h : ∀ a ∈ as, P a) (s : σ) :
    Always step (fun _ a => P a) s as := by
  induction as generalizing s with
  | nil => trivial
  | cons a as ih =>
    exact ⟨h a List.mem_cons_self, fun t _ => ih (fun b hb => h b (List.mem_cons_of_mem a hb)) t⟩

theorem Always.and {P Q : σ → α → Prop} {s : σ} {as : List α} (hP : Always step P s as)
    (hQ : Always step Q s as) : Always step (fun s a => P s a ∧ Q s a) s as := by
  induction as generalizing s with
  | nil => trivial
  | cons a as ih => exact ⟨⟨hP.1, hQ.1⟩, fun t ht => ih (hP.2 t ht) (hQ.2 t ht)⟩

theorem Always.append {P : σ → α → Prop} {s : σ} {as bs : List α} (has : Always step P s as)
    (hbs : ∀ t, run step s as = some t → Always step P t bs) : Always step P s (as ++ bs) := by
  induction as generalizing s with
  | nil => exact hbs s rfl
  | cons a as ih =>
    exact ⟨has.1, fun t ht => ih (has.2 t ht) fun u hu => hbs u (run_cons.2 ⟨t, ht, hu⟩)⟩

/-- Every step of a run meets a condition that the invariant gives. -/
theorem Always.of_invariant {I : σ → Prop} {P Q : σ → α → Prop}
    (hstep : ∀ s a t, I s → P s a → step s a = some t → I t) (hQ : ∀ s a, I s → P s a → Q s a)
    {s : σ} {as : List α} (hs : I s) (hP : Always step P s as) : Always step Q s as := by
  induction as generalizing s with
  | nil => trivial
  | cons a as ih =>
    exact ⟨hQ s a hs hP.1, fun t ht => ih (hstep s a t hs hP.1 ht) (hP.2 t ht)⟩

theorem Always.imp {P Q : σ → α → Prop} {s : σ} {as : List α} (hP : Always step P s as)
    (h : ∀ s a, P s a → Q s a) : Always step Q s as :=
  Always.of_invariant (I := fun _ => True) (fun _ _ _ _ _ _ => trivial) (fun s a _ => h s a) trivial
    hP

/-- If every step outside the condition `P` leads to a state without the property `G`, then `G`
holds in every state of a run exactly when all its steps meet `P`.  `F` collects what is assumed of
every step. -/
theorem forall_prefix_iff_always {I G : σ → Prop} {F P : σ → α → Prop} (hG : ∀ s, I s → G s)
    (hstep : ∀ s a t, I s → F s a → P s a → step s a = some t → I t)
    (hbad : ∀ s a t, I s → F s a → ¬ P s a → step s a = some t → ¬ G t)
    {s t : σ} {as : List α} (hs : I s) (hF : Always step F s as) (hrun : run step s as = some t) :
    (∀ bs u, bs <+: as → run step s bs = some u → G u) ↔ Always step P s as := by
  induction as generalizing s with
  | nil =>
    refine ⟨fun _ => trivial, fun _ bs u hbs hu => ?_⟩
    rw [List.prefix_nil.1 hbs] at hu
    cases hu
    exact hG s hs
  | cons a as ih =>
    obtain ⟨u, hu, hut⟩ := run_cons.1 hrun
    constructor
    · intro hall
      have hfirst : P s a := by
        by_contra hP
        exact hbad s a u hs hF.1 hP hu (hall [a] u ⟨as, rfl⟩ (run_singleton.2 hu))
      refine ⟨hfirst, fun v hv => ?_⟩
      cases hu.symm.trans hv
      have hrest := fun bs w (hbs : bs <+: as) hw =>
        hall (a :: bs) w (List.cons_prefix_cons.2 ⟨rfl, hbs⟩) (run_cons.2 ⟨u, hu, hw⟩)
      exact (ih (hstep s a u hs hF.1 hfirst hu) (hF.2 u hu) hut).1 hrest
    · rintro ⟨hfirst, hrest⟩ bs w hbs hw
      cases bs with
      | nil =>
        cases hw
        exact hG s hs
      | cons b bs =>
        obtain ⟨rfl, htail⟩ := List.cons_prefix_cons.1 hbs
        obtain ⟨v, hv, hw⟩ := run_cons.1 hw
        cases hu.symm.trans hv
        exact (ih (hstep s b u hs hF.1 hfirst hu) (hF.2 u hu) hut).2 (hrest u hu) bs w htail hw

/-! ## Simulation -/

/-- If each step of one system is matched by a run of another, possibly an empty one, then so is
each run. -/
theorem run_simulation {τ β : Type*} {step' : τ → β → Option τ} {R : σ → τ → Prop}
    (hstep : ∀ s a t s', R s s' → step s a = some t →
      ∃ bs t', run step' s' bs = some t' ∧ R t t')
    {s t : σ} {s' : τ} {as : List α} (hs : R s s') (hrun : run step s as = some t) :
    ∃ bs t', run step' s' bs = some t' ∧ R t t' := by
  induction as generalizing s s' with
  | nil =>
    cases hrun
    exact ⟨[], s', rfl, hs⟩
  | cons a as ih =>
    obtain ⟨u, hu, hut⟩ := run_cons.1 hrun
    obtain ⟨bs, u', hbs, hu'⟩ := hstep s a u s' hs hu
    obtain ⟨cs, t', hcs, ht'⟩ := ih hu' hut
    exact ⟨bs ++ cs, t', run_append.2 ⟨u', hbs, hcs⟩, ht'⟩

/-- The same, when the steps that match meet a condition of their own. -/
theorem run_simulation_always {τ β : Type*} {step' : τ → β → Option τ} {R : σ → τ → Prop}
    {P : τ → β → Prop}
    (hstep : ∀ s a t s', R s s' → step s a = some t →
      ∃ bs t', run step' s' bs = some t' ∧ Always step' P s' bs ∧ R t t')
    {s t : σ} {s' : τ} {as : List α} (hs : R s s') (hrun : run step s as = some t) :
    ∃ bs t', run step' s' bs = some t' ∧ Always step' P s' bs ∧ R t t' := by
  induction as generalizing s s' with
  | nil =>
    cases hrun
    exact ⟨[], s', rfl, trivial, hs⟩
  | cons a as ih =>
    obtain ⟨u, hu, hut⟩ := run_cons.1 hrun
    obtain ⟨bs, u', hbs, hP, hu'⟩ := hstep s a u s' hs hu
    obtain ⟨cs, t', hcs, hP', ht'⟩ := ih hu' hut
    refine ⟨bs ++ cs, t', run_append.2 ⟨u', hbs, hcs⟩, hP.append fun v hv => ?_, ht'⟩
    cases hbs.symm.trans hv
    exact hP'

/-- If each step of one system is invisible in another or matched there by the step of the same
name, then the runs of the first are runs of the second with some steps left out. -/
theorem run_stutter {τ : Type*} {step' : τ → α → Option τ} {R : σ → τ → Prop}
    (hstep : ∀ s a t s', R s s' → step s a = some t →
      R t s' ∨ ∃ t', step' s' a = some t' ∧ R t t')
    {s t : σ} {s' : τ} {as : List α} (hs : R s s') (hrun : run step s as = some t) :
    ∃ bs t', bs.Sublist as ∧ run step' s' bs = some t' ∧ R t t' := by
  induction as generalizing s s' with
  | nil =>
    cases hrun
    exact ⟨[], s', List.Sublist.refl _, rfl, hs⟩
  | cons a as ih =>
    obtain ⟨u, hu, hut⟩ := run_cons.1 hrun
    rcases hstep s a u s' hs hu with hsilent | ⟨u', hu', hR⟩
    · obtain ⟨bs, t', hsub, hbs, ht'⟩ := ih hsilent hut
      exact ⟨bs, t', hsub.cons a, hbs, ht'⟩
    · obtain ⟨bs, t', hsub, hbs, ht'⟩ := ih hR hut
      exact ⟨a :: bs, t', hsub.cons_cons a, run_cons.2 ⟨u', hu', hbs⟩, ht'⟩

/-! ## Pumping a cycle -/

/-- A block of actions that leads from `s k` to `s (k + 1)` for each `k < n`, repeated `n` times,
leads from `s 0` to `s n`. -/
theorem run_replicate {s : ℕ → σ} {as : List α} {n : ℕ}
    (h : ∀ k < n, run step (s k) as = some (s (k + 1))) :
    run step (s 0) (List.replicate n as).flatten = some (s n) := by
  induction n with
  | zero => simp
  | succ n ih =>
    rw [List.replicate_succ', List.flatten_append, run_append]
    refine ⟨s n, ih fun k hk => h k (by omega), ?_⟩
    simpa using h n (by omega)

/-! ## Machines that answer -/

section Answers

variable {τ β : Type*} (f : σ → α → σ × β) (g : τ → α → τ × β)

/-- The answers to a sequence of calls. -/
def outputs : σ → List α → List β
  | _, [] => []
  | s, a :: as => (f s a).2 :: outputs (f s a).1 as

/-- The state after a sequence of calls. -/
def final : σ → List α → σ
  | s, [] => s
  | s, a :: as => final (f s a).1 as

variable {f g}

/-- The relation may depend on the calls still to come. -/
theorem outputs_eq_of_simulation {R : List α → σ → τ → Prop}
    (h : ∀ a as s t, R (a :: as) s t →
      R as (f s a).1 (g t a).1 ∧ (f s a).2 = (g t a).2)
    {s : σ} {t : τ} (as : List α) (hs : R as s t) :
    outputs f s as = outputs g t as ∧ R [] (final f s as) (final g t as) := by
  induction as generalizing s t with
  | nil => exact ⟨rfl, hs⟩
  | cons a as ih =>
    obtain ⟨hR, hout⟩ := h a as s t hs
    obtain ⟨houts, hfinal⟩ := ih hR
    exact ⟨by rw [outputs, outputs, hout, houts], hfinal⟩

end Answers

/-! ## Steps that give something out -/

section Emitted

variable {β γ τ : Type*}

/-- What the steps of a run give out, in their order. -/
def emitted (step : σ → α → Option σ) (out : σ → α → Option β) : σ → List α → List β
  | _, [] => []
  | s, a :: as => (out s a).toList ++ (step s a).elim [] fun t => emitted step out t as

@[simp] theorem emitted_nil (out : σ → α → Option β) (s : σ) : emitted step out s [] = [] := rfl

theorem emitted_cons {out : σ → α → Option β} {s t : σ} {a : α} (h : step s a = some t)
    (as : List α) :
    emitted step out s (a :: as) = (out s a).toList ++ emitted step out t as := by
  rw [emitted, h, Option.elim_some]

/-- A system gives out calls with their answers.  If a related machine, called at the steps that
give something out, answers alike at exactly the steps that meet the condition `P`, and stays
related there, then it answers all the calls of a run alike exactly when all the steps meet `P`. -/
theorem outputs_eq_iff_always {out : σ → α → Option β} {call : β → γ} {answer : β → τ}
    {υ : Type*} {f : υ → γ → υ × τ} {R : σ → υ → Prop} {F P : σ → α → Prop}
    (hsilent : ∀ s a t u, R s u → F s a → step s a = some t → out s a = none → P s a ∧ R t u)
    (hcall : ∀ s a t u b, R s u → F s a → step s a = some t → out s a = some b →
      ((f u (call b)).2 = answer b ↔ P s a) ∧ (P s a → R t (f u (call b)).1))
    {s t : σ} {u : υ} {as : List α} (hs : R s u) (hF : Always step F s as)
    (hrun : run step s as = some t) :
    outputs f u ((emitted step out s as).map call) = (emitted step out s as).map answer ↔
      Always step P s as := by
  induction as generalizing s u with
  | nil => exact ⟨fun _ => trivial, fun _ => rfl⟩
  | cons a as ih =>
    obtain ⟨v, hv, hvt⟩ := run_cons.1 hrun
    have hrest {Q : Prop} : (Q ∧ ∀ w, step s a = some w → Always step P w as) ↔
        Q ∧ Always step P v as := by
      refine and_congr_right fun _ => ⟨fun h => h v hv, fun h w hw => ?_⟩
      cases hv.symm.trans hw
      exact h
    rw [emitted_cons hv, Always, hrest]
    cases hout : out s a with
    | none =>
      obtain ⟨hP, hR⟩ := hsilent s a v u hs hF.1 hv hout
      rw [Option.toList_none, List.nil_append, ih hR (hF.2 v hv) hvt]
      exact ⟨fun h => ⟨hP, h⟩, And.right⟩
    | some b =>
      obtain ⟨hanswer, hR⟩ := hcall s a v u b hs hF.1 hv hout
      simp only [Option.toList_some, List.cons_append, List.nil_append, List.map_cons, outputs,
        List.cons.injEq, hanswer]
      exact and_congr_right fun hP => ih (hR hP) (hF.2 v hv) hvt

/-- If no step lowers the measure `μ`, all steps of a run that ends below a bound end below it. -/
theorem always_after_of_lt {μ : σ → ℕ} {n : ℕ} (hgrow : ∀ s a t, step s a = some t → μ s ≤ μ t)
    {s t : σ} {as : List α} (hrun : run step s as = some t) (ht : μ t < n) :
    Always step (fun s a => ∀ t, step s a = some t → μ t < n) s as := by
  apply always_of_run (I := fun _ => True) (B := fun u => n ≤ μ u) (fun _ _ _ _ _ => trivial)
    ?_ ?_ trivial hrun (Nat.not_le.2 ht)
  · intro u a v _ hnot hv
    by_contra hlt
    apply hnot
    intro w hw
    cases hv.symm.trans hw
    exact Nat.not_le.1 hlt
  · intro u a v hu hv
    exact Nat.le_trans hu (hgrow u a v hv)

end Emitted

end Transition
