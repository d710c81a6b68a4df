import CoUringWeb.Framework.Interleaving

/-!
# Programs that await, and threads that run them

A program is cut into pieces at the points where it asks its surroundings for something and is
suspended until the answer is there: `start` is the piece up to the first such point, `resume` the
piece after an answer.  A piece gets an argument of type `E`, which stands for everything else that
it finds in its surroundings while it runs.

* `Alone` says what one program can do when nothing else is there: asking is a call that blocks,
  and each answer is one that is allowed for its question.
* `Threads` runs a program any number of times at once, one thread for each argument.  A step runs
  one piece of one thread, so that every interleaving of the pieces is a run.

In a run with allowed answers each thread does what its program can do alone (`alone_of_run`).  A
property of the events of a program is so proved for one thread by induction over `Alone`, and
holds of each thread in every interleaving.
-/

namespace Awaiting

open Interleaving Transition

/-- What a piece of a program comes to. -/
inductive Next (Q S : Type*) where
  /-- the program asks `q` and is suspended in the state `s` -/
  | awaits (q : Q) (s : S)
  | ended
  /-- the program stopped the process, or what it does from here on is undefined -/
  | broken
  deriving DecidableEq, Repr

/-- A piece of a program that was run: its effects in order, and what comes next. -/
structure Ran (F Q S : Type*) where
  effects : List F
  next : Next Q S
  deriving DecidableEq, Repr

structure Program (A E F Q R S : Type*) where
  start : A → E → Ran F Q S
  resume : S → E → R → Ran F Q S

inductive TraceEvent (F Q R : Type*) where
  | did (f : F)
  | asked (q : Q)
  | got (r : R)
  deriving DecidableEq, Repr

variable {A E F Q R S : Type*}

def Next.asked : Next Q S → List (TraceEvent F Q R)
  | .awaits q _ => [.asked q]
  | .ended | .broken => []

/-- The events of a piece. -/
def Ran.events (r : Ran F Q S) : List (TraceEvent F Q R) :=
  r.effects.map .did ++ r.next.asked

/-! ## One program alone -/

/-- Run alone on the argument `a`, the program can have caused these events and be at `next`. -/
inductive Alone (p : Program A E F Q R S) (allowed : Q → R → Prop) (a : A) :
    List (TraceEvent F Q R) → Next Q S → Prop where
  | start (e : E) : Alone p allowed a (p.start a e).events (p.start a e).next
  | resume {events : List (TraceEvent F Q R)} {q : Q} {s : S}
      (h : Alone p allowed a events (.awaits q s)) (e : E) (r : R) (hr : allowed q r) :
      Alone p allowed a (events ++ .got r :: (p.resume s e r).events) (p.resume s e r).next

/-! ## Threads -/

/-- The argument and the present point of each thread, and the log of all events. -/
structure Threads (A F Q R S : Type*) where
  threads : List (A × Next Q S)
  log : List (ℕ × TraceEvent F Q R)

namespace Threads

inductive Action (A E R : Type*) where
  /-- a new thread runs its first piece -/
  | start (a : A) (e : E)
  /-- the thread `n` gets the answer `r` and runs its next piece -/
  | answer (n : ℕ) (e : E) (r : R)

def new : Threads A F Q R S := { threads := [], log := [] }

def step (p : Program A E F Q R S) (t : Threads A F Q R S) :
    Action A E R → Option (Threads A F Q R S)
  | .start a e =>
    some
      { threads := t.threads ++ [(a, (p.start a e).next)]
        log := t.log ++ tagged t.threads.length (p.start a e).events }
  | .answer n e r =>
    match t.threads[n]? with
    | some (a, .awaits _ s) =>
      some
        { threads := t.threads.set n (a, (p.resume s e r).next)
          log := t.log ++ tagged n (.got r :: (p.resume s e r).events) }
    | _ => none

/-- The answers of a step are allowed for the question of their thread. -/
def Allowed (allowed : Q → R → Prop) (t : Threads A F Q R S) : Action A E R → Prop
  | .start _ _ => True
  | .answer n _ r => ∀ a q s, t.threads[n]? = some (a, .awaits q s) → allowed q r

/-- The events of the thread `n`. -/
def events (t : Threads A F Q R S) (n : ℕ) : List (TraceEvent F Q R) := part n t.log

variable {p : Program A E F Q R S} {allowed : Q → R → Prop} {t u : Threads A F Q R S}

theorem step_answer {n : ℕ} {e : E} {r : R} (h : step p t (.answer n e r) = some u) :
    ∃ a q s, t.threads[n]? = some (a, .awaits q s) ∧
      u = { threads := t.threads.set n (a, (p.resume s e r).next)
            log := t.log ++ tagged n (.got r :: (p.resume s e r).events) } := by
  simp only [step] at h
  split at h
  · rename_i a q s hget
    cases h
    exact ⟨a, q, s, hget, rfl⟩
  · cases h

/-- Every thread does what its program can do alone. -/
structure Inv (p : Program A E F Q R S) (allowed : Q → R → Prop) (t : Threads A F Q R S) :
    Prop where
  lt : ∀ e ∈ t.log, e.1 < t.threads.length
  alone : ∀ n a next, t.threads[n]? = some (a, next) → Alone p allowed a (t.events n) next

theorem inv_new : Inv p allowed (new : Threads A F Q R S) where
  lt := by simp [new]
  alone := by simp [new]

theorem inv_step {b : Action A E R} (h : Inv p allowed t) (hallowed : Allowed allowed t b)
    (hu : step p t b = some u) : Inv p allowed u := by
  cases b with
  | start a e =>
    cases hu
    refine ⟨fun x hx => ?_, fun n a' next hget => ?_⟩
    · rw [List.length_append, List.length_singleton]
      rcases List.mem_append.1 hx with hx | hx
      · exact Nat.lt_succ_of_lt (h.lt x hx)
      · obtain ⟨_, -, rfl⟩ := List.mem_map.1 hx
        exact Nat.lt_succ_self _
    · have hevents : part n (t.log ++ tagged t.threads.length (p.start a e).events) =
          t.events n ++ part n (tagged t.threads.length (p.start a e).events) := part_append _ _ _
      rcases Nat.lt_trichotomy n t.threads.length with hn | rfl | hn
      · rw [List.getElem?_append_left hn] at hget
        rw [events, hevents, part_tagged_of_ne (by omega), List.append_nil]
        exact h.alone n a' next hget
      · rw [List.getElem?_concat_length] at hget
        cases hget
        rw [events, hevents, part_tagged_self, events, part_of_forall_lt h.lt]
        exact Alone.start e
      · rw [List.getElem?_eq_none (by simp; omega)] at hget
        cases hget
  | answer n e r =>
    obtain ⟨a, q, s, hget, rfl⟩ := step_answer hu
    obtain ⟨hn, -⟩ := List.getElem?_eq_some_iff.1 hget
    have hevents (m : ℕ) : part m (t.log ++ tagged n (.got r :: (p.resume s e r).events)) =
        t.events m ++ part m (tagged n (.got r :: (p.resume s e r).events)) := part_append _ _ _
    refine ⟨fun x hx => ?_, fun m a' next hget' => ?_⟩
    · rw [List.length_set]
      rcases List.mem_append.1 hx with hx | hx
      · exact h.lt x hx
      · obtain ⟨_, -, rfl⟩ := List.mem_map.1 hx
        exact hn
    · by_cases hm : n = m
      · subst hm
        rw [List.getElem?_set_self hn] at hget'
        cases hget'
        rw [events, hevents, part_tagged_self]
        exact (h.alone n a _ hget).resume e r (hallowed a q s hget)
      · rw [List.getElem?_set_ne hm] at hget'
        rw [events, hevents, part_tagged_of_ne hm, List.append_nil]
        exact h.alone m a' next hget'

/-- A thread keeps its argument. -/
theorem args_step {b : Action A E R} (hu : step p t b = some u) :
    t.threads.map Prod.fst <+: u.threads.map Prod.fst := by
  cases b with
  | start a e =>
    cases hu
    rw [List.map_append]
    exact List.prefix_append _ _
  | answer n e r =>
    obtain ⟨a, q, s, hget, rfl⟩ := step_answer hu
    obtain ⟨hn, hget⟩ := List.getElem?_eq_some_iff.1 hget
    have hn' : n < (t.threads.map Prod.fst).length := by rwa [List.length_map]
    have ha : (t.threads.map Prod.fst)[n] = a := by rw [List.getElem_map, hget]
    rw [List.map_set]
    dsimp only
    rw [← ha, List.set_getElem_self]

/-- In a run with allowed answers each thread does what its program can do alone. -/
theorem inv_run {bs : List (Action A E R)} (hrun : run (step p) new bs = some t)
    (hallowed : Always (step p) (Allowed allowed) new bs) : Inv p allowed t :=
  run_invariant_of_always (fun _ _ _ => inv_step) inv_new hallowed hrun

theorem alone_of_run {bs : List (Action A E R)} (hrun : run (step p) new bs = some t)
    (hallowed : Always (step p) (Allowed allowed) new bs) {n : ℕ} {a : A} {next : Next Q S}
    (hget : t.threads[n]? = some (a, next)) : Alone p allowed a (t.events n) next :=
  (inv_run hrun hallowed).alone n a next hget

/-! ## Resources of threads -/

variable {T : Type*} [DecidableEq T]

/-- If a program alone is tidy and owns what `own` says of its point, then threads that run it are
tidy together, and what is acquired is the sum of what they own. -/
theorem Inv.run_accesses (h : Inv p allowed t) (access : TraceEvent F Q R → Option (Access T))
    (own : A → List (TraceEvent F Q R) → Next Q S → Multiset T)
    (halone : ∀ a es next, Alone p allowed a es next →
      run Access.on 0 (es.filterMap access) = some (own a es next)) :
    run Access.on 0 ((t.log.map Prod.snd).filterMap access) =
      some (∑ n ∈ Finset.range t.threads.length,
        (t.threads[n]?.map fun x => own x.1 (t.events n) x.2).getD 0) := by
  have hpart (n : ℕ) : Tidy (part n (view access t.log)) ∧
      owned (part n (view access t.log)) =
        (t.threads[n]?.map fun x => own x.1 (t.events n) x.2).getD 0 := by
    rw [part_view]
    cases hget : t.threads[n]? with
    | none =>
      have hnone : part n t.log = [] := part_of_forall_lt fun e he => by
        have := h.lt e he
        have := List.getElem?_eq_none_iff.1 hget
        omega
      rw [hnone]
      exact ⟨rfl, rfl⟩
    | some x => exact tidy_of_run (halone x.1 _ x.2 (h.alone n x.1 x.2 hget))
  have hlt : ∀ e ∈ view access t.log, e.1 < t.threads.length :=
    forall_mem_view (P := fun n => n < t.threads.length) h.lt
  rw [← map_snd_view, run_interleaved hlt fun n => (hpart n).1]
  exact congrArg some (Finset.sum_congr rfl fun n _ => (hpart n).2)

end Threads

end Awaiting
