import CoUringWeb.Framework.Transition
import Mathlib.Algebra.BigOperators.Group.Finset.Basic
import Mathlib.Algebra.Order.Group.Multiset

/-!
# Logs of several parties, and what the parties own

A log is a list of events, each with the number of the party it belongs to; `part n` is what the
party `n` did, in order.

Some events acquire, use or release a resource.  A party is *tidy* when it uses and releases only
what it has acquired itself and not yet released; this speaks of its own part alone.  By the frame
rule (`Access.on_add`) a tidy party may be run next to any others, so that parties that are each
tidy by themselves are tidy together, in every interleaving, and the table of what is acquired is
the sum of what the parties own (`run_interleaved`).  When no party is ever given a resource that
is in the table, no two of them own the same one (`nodup_of_fresh`).
-/

namespace Interleaving

open Transition

variable {α β T : Type*}

/-! ## The part of one party -/

/-- The events of the party `n`. -/
def part (n : ℕ) (log : List (ℕ × α)) : List α :=
  (log.filter fun e => e.1 = n).map Prod.snd

/-- The events of one party, with its number. -/
def tagged (n : ℕ) (events : List α) : List (ℕ × α) :=
  events.map fun e => (n, e)

@[simp] theorem part_nil (n : ℕ) : part n ([] : List (ℕ × α)) = [] := rfl

@[simp] theorem part_append (n : ℕ) (l m : List (ℕ × α)) :
    part n (l ++ m) = part n l ++ part n m := by
  simp [part]

@[simp] theorem part_tagged_self (n : ℕ) (events : List α) : part n (tagged n events) = events := by
  induction events with
  | nil => rfl
  | cons e es ih => simpa [part, tagged] using ih

theorem part_tagged_of_ne {n m : ℕ} (h : m ≠ n) (events : List α) :
    part n (tagged m events) = [] := by
  simp [part, tagged, h]

theorem part_of_forall_lt {n : ℕ} {log : List (ℕ × α)} (h : ∀ e ∈ log, e.1 < n) :
    part n log = [] := by
  have hnone : (log.filter fun e => e.1 = n) = [] :=
    List.filter_eq_nil_iff.2 fun e he => by
      have := h e he
      simp only [decide_eq_true_eq]
      omega
  rw [part, hnone, List.map_nil]

/-- The same log, as far as `f` looks at the events. -/
def view (f : α → Option β) (log : List (ℕ × α)) : List (ℕ × β) :=
  log.filterMap fun e => (f e.2).map fun b => (e.1, b)

theorem view_append (f : α → Option β) (l m : List (ℕ × α)) :
    view f (l ++ m) = view f l ++ view f m :=
  List.filterMap_append

theorem part_view (f : α → Option β) (n : ℕ) (log : List (ℕ × α)) :
    part n (view f log) = (part n log).filterMap f := by
  induction log with
  | nil => rfl
  | cons e es ih =>
    have hview : view f (e :: es) = view f [e] ++ view f es := view_append f [e] es
    have hpart : part n (e :: es) = part n [e] ++ part n es := part_append n [e] es
    rw [hview, hpart, part_append, List.filterMap_append, ih]
    congr 1
    by_cases hn : e.1 = n <;> cases hf : f e.2 <;> simp [view, part, hn, hf]

theorem map_snd_view (f : α → Option β) (log : List (ℕ × α)) :
    (view f log).map Prod.snd = (log.map Prod.snd).filterMap f := by
  induction log with
  | nil => rfl
  | cons e es ih =>
    cases hf : f e.2 <;> simpa [view, hf] using ih

theorem forall_mem_view {f : α → Option β} {log : List (ℕ × α)} {P : ℕ → Prop}
    (h : ∀ e ∈ log, P e.1) : ∀ e ∈ view f log, P e.1 := by
  intro e he
  obtain ⟨e', he', heq⟩ := List.mem_filterMap.1 he
  obtain ⟨b, -, rfl⟩ := Option.map_eq_some_iff.1 heq
  exact h e' he'

/-! ## Resources -/

/-- What an event does to a resource. -/
inductive Access (T : Type*) where
  | acquires (x : T)
  | uses (x : T)
  | releases (x : T)
  deriving DecidableEq, Repr

variable [DecidableEq T]

/-- What is acquired after an access; `none` when it uses or releases what is not. -/
def Access.on (s : Multiset T) : Access T → Option (Multiset T)
  | .acquires x => some (x ::ₘ s)
  | .uses x => if x ∈ s then some s else none
  | .releases x => if x ∈ s then some (s.erase x) else none

/-- The frame rule: what the others own does not matter. -/
theorem Access.on_add {s t : Multiset T} {a : Access T} (h : Access.on s a = some t)
    (r : Multiset T) : Access.on (s + r) a = some (t + r) := by
  cases a with
  | acquires x =>
    cases h
    simp [Access.on]
  | uses x =>
    simp only [Access.on] at h ⊢
    split at h <;> cases h
    rename_i hx
    rw [if_pos (Multiset.mem_add.2 (Or.inl hx))]
  | releases x =>
    simp only [Access.on] at h ⊢
    split at h <;> cases h
    rename_i hx
    rw [if_pos (Multiset.mem_add.2 (Or.inl hx)), Multiset.erase_add_left_pos r hx]

/-- What a tidy party owns; `0` for one that is not. -/
def owned (accesses : List (Access T)) : Multiset T :=
  (run Access.on 0 accesses).getD 0

/-- The party uses and releases only what it owns. -/
def Tidy (accesses : List (Access T)) : Prop :=
  run Access.on 0 accesses = some (owned accesses)

theorem tidy_of_run {accesses : List (Access T)} {s : Multiset T}
    (h : run Access.on 0 accesses = some s) : Tidy accesses ∧ owned accesses = s := by
  have howned : owned accesses = s := by rw [owned, h, Option.getD_some]
  exact ⟨by rw [Tidy, howned, h], howned⟩

theorem Tidy.of_append {as bs : List (Access T)} (h : Tidy (as ++ bs)) : Tidy as := by
  obtain ⟨s, hs, -⟩ := run_append.1 h
  exact (tidy_of_run hs).1

/-- Parties that are tidy by themselves are tidy together, and what is acquired is the sum of what
they own. -/
theorem run_interleaved {log : List (ℕ × Access T)} {n : ℕ} (hlt : ∀ e ∈ log, e.1 < n)
    (htidy : ∀ k, Tidy (part k log)) :
    run Access.on 0 (log.map Prod.snd) =
      some (∑ k ∈ Finset.range n, owned (part k log)) := by
  induction log using List.reverseRecOn with
  | nil => simp [owned]
  | append_singleton log e ih =>
    obtain ⟨m, a⟩ := e
    have hpart (k : ℕ) : part k (log ++ [(m, a)]) = part k log ++ part k (tagged m [a]) :=
      part_append k log _
    have hbefore := ih (fun e he => hlt e (List.mem_append_left _ he)) fun k => by
      have := htidy k
      rw [hpart] at this
      exact this.of_append
    have hm : m ∈ Finset.range n :=
      Finset.mem_range.2 (hlt (m, a) (List.mem_append_right _ List.mem_cons_self))
    -- the others own what they owned
    have hothers (k : ℕ) (hk : k ≠ m) : owned (part k (log ++ [(m, a)])) = owned (part k log) := by
      rw [hpart, part_tagged_of_ne (Ne.symm hk), List.append_nil]
    have hown : Access.on (owned (part m log)) a = some (owned (part m (log ++ [(m, a)]))) := by
      have hrun : run Access.on 0 (part m log ++ [a]) =
          some (owned (part m (log ++ [(m, a)]))) := by
        simpa [hpart, Tidy] using htidy m
      obtain ⟨s, hs, ha⟩ := run_append.1 hrun
      rw [(tidy_of_run hs).2]
      exact run_singleton.1 ha
    have hsum (f : ℕ → Multiset T) :
        ∑ k ∈ Finset.range n, f k = f m + ∑ k ∈ (Finset.range n).erase m, f k :=
      (Finset.add_sum_erase _ f hm).symm
    rw [List.map_append, run_append]
    refine ⟨_, hbefore, ?_⟩
    rw [List.map_singleton, run_singleton, hsum, hsum (fun k => owned (part k (log ++ [(m, a)]))),
      Finset.sum_congr rfl fun k hk => (hothers k (Finset.mem_erase.1 hk).1)]
    exact Access.on_add hown _

/-- The access does not acquire what is acquired already. -/
def Access.Fresh (s : Multiset T) (a : Access T) : Prop :=
  ∀ x, a = .acquires x → x ∉ s

instance : ∀ (s : Multiset T) (a : Access T), Decidable (a.Fresh s)
  | s, .acquires x => decidable_of_iff (x ∉ s) ⟨fun h _ heq => by cases heq; exact h,
      fun h => h x rfl⟩
  | _, .uses _ => .isTrue fun _ heq => by cases heq
  | _, .releases _ => .isTrue fun _ heq => by cases heq

theorem nodup_of_fresh {accesses : List (Access T)} {s : Multiset T}
    (hfresh : Always Access.on (fun s a => a.Fresh s) 0 accesses)
    (hrun : run Access.on 0 accesses = some s) : s.Nodup := by
  refine run_invariant_of_always (I := Multiset.Nodup) ?_ Multiset.nodup_zero hfresh hrun
  intro s a t hs ha ht
  cases a with
  | acquires x =>
    cases ht
    exact Multiset.nodup_cons.2 ⟨ha x rfl, hs⟩
  | uses x =>
    simp only [Access.on] at ht
    split at ht <;> cases ht
    exact hs
  | releases x =>
    simp only [Access.on] at ht
    split at ht <;> cases ht
    exact hs.erase x

/-- No two parts of a multiset without repetitions have an element in common. -/
theorem owner_unique {ι : Type*} {s : Finset ι} {f : ι → Multiset T} (hs : (∑ k ∈ s, f k).Nodup)
    {i j : ι} (hi : i ∈ s) (hj : j ∈ s) {x : T} (hxi : x ∈ f i) (hxj : x ∈ f j) : i = j := by
  classical
  by_contra hne
  have hcount := Multiset.nodup_iff_count_le_one.1 hs x
  rw [Multiset.count_sum', ← Finset.add_sum_erase _ _ hi,
    ← Finset.add_sum_erase _ _ (Finset.mem_erase.2 ⟨Ne.symm hne, hj⟩)] at hcount
  have hposi := Multiset.count_pos.2 hxi
  have hposj := Multiset.count_pos.2 hxj
  omega

omit [DecidableEq T] in
theorem nodup_of_mem {ι : Type*} {s : Finset ι} {f : ι → Multiset T} (hs : (∑ k ∈ s, f k).Nodup)
    {i : ι} (hi : i ∈ s) : (f i).Nodup := by
  classical
  rw [← Finset.add_sum_erase _ _ hi] at hs
  exact Multiset.nodup_of_le (Multiset.le_add_right _ _) hs

end Interleaving
