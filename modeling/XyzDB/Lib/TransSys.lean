import Mathlib

/-!
# Labelled transition systems with guarded runs

A system is an initial state and a partial transition function on labels: the
label resolves every choice the environment makes (which thread moves, what it
writes), so a state and a label determine the next state or that the step is
not enabled. Runs are therefore executable (`TransSys.runWith`), and a concrete run
is settled by evaluation.

A *guard* `ok : State → Label → Prop` restricts the steps of a run by a
condition on the state before each of them. `TransSys.Reach sys ok` collects the
states reached by runs all of whose steps meet the guard; the unrestricted
reachable states are those of the trivial guard. Every invariant is proved
through `Reach.invariant`.

Systems of many threads keep one record for each in a list; the last section has what
happens to a property of all of them when one changes.
-/

/-- A deterministic labelled transition system. -/
structure TransSys (State Label : Type) where
  /-- The unique initial state. -/
  init : State
  /-- The state after a step, or `none` when the step is not enabled. -/
  next : State → Label → Option State

namespace TransSys

variable {State Label : Type} {sys : TransSys State Label}

/-- States reached by runs from the initial state all of whose steps meet the
guard `ok`. -/
inductive Reach (sys : TransSys State Label) (ok : State → Label → Prop) : State → Prop
  | init : Reach sys ok sys.init
  | step {s s' : State} {l : Label} :
      Reach sys ok s → ok s l → sys.next s l = some s' → Reach sys ok s'

/-- The guard that admits every step. -/
def anyStep (_ : State) (_ : Label) : Prop := True

instance (s : State) (l : Label) : Decidable (anyStep s l) := inferInstanceAs (Decidable True)

variable {s : State}

/-- **Invariant rule.** What holds initially and is kept by every step that
meets the guard holds in every state reached. -/
theorem Reach.invariant {ok : State → Label → Prop} (Inv : State → Prop) (h_init : Inv sys.init)
    (h_step : ∀ s l s', Inv s → ok s l → sys.next s l = some s' → Inv s') (h : Reach sys ok s) :
      Inv s := by
  induction h with
  | init => exact h_init
  | step _ hok hnext ih => exact h_step _ _ _ ih hok hnext

lemma Reach.mono {ok ok' : State → Label → Prop} (himp : ∀ s l, ok s l → ok' s l)
    (h : Reach sys ok s) : Reach sys ok' s := by
  induction h with
  | init => exact .init
  | step _ hok hnext ih => exact .step ih (himp _ _ hok) hnext

section

variable (sys) (ok : State → Label → Prop) [∀ s l, Decidable (ok s l)]

/-- Execute a list of labels from a given state; `none` when a step is not enabled or
does not meet the guard. -/
def runWith : State → List Label → Option State
  | s, [] => some s
  | s, l :: ls => if ok s l then (sys.next s l).bind fun s' => runWith s' ls else none

/-- Execute a list of labels without a guard. -/
def run : State → List Label → Option State := sys.runWith anyStep

variable {sys ok} {ls : List Label}

lemma Reach.runWith {s' : State} (h : Reach sys ok s)
    (hrun : sys.runWith ok s ls = some s') : Reach sys ok s' := by
  induction ls generalizing s with
  | nil =>
    simp only [TransSys.runWith, Option.some.injEq] at hrun
    exact hrun ▸ h
  | cons l ls ih =>
    rw [TransSys.runWith] at hrun
    split at hrun
    · next hok =>
      obtain ⟨t, ht, hrun⟩ := Option.bind_eq_some_iff.mp hrun
      exact ih (h.step hok ht) hrun
    · cases hrun

lemma reach_of_runWith
    (h : sys.runWith ok sys.init ls = some s) : Reach sys ok s := Reach.init.runWith h

/-- A guarded execution reaches a state of which a property holds, when evaluation
says so. -/
lemma exists_reach_of_runWith {P : State → Prop} [DecidablePred P] (ls : List Label)
    (h : (sys.runWith ok sys.init ls).any (fun s => decide (P s)) = true) :
    ∃ s, Reach sys ok s ∧ P s := by
  obtain ⟨s, hrun, hp⟩ := (Option.any_eq_true _ _).mp h
  exact ⟨s, reach_of_runWith hrun, of_decide_eq_true hp⟩

/-- As `exists_reach_of_runWith`, with what is known of the state because it is reached. -/
lemma exists_reach_and {P Q : State → Prop} [DecidablePred P] (ls : List Label)
    (h : (sys.runWith ok sys.init ls).any (fun s => decide (P s)) = true)
    (hQ : ∀ s, Reach sys ok s → Q s) : ∃ s, Reach sys ok s ∧ P s ∧ Q s := by
  obtain ⟨s, hs, hp⟩ := exists_reach_of_runWith ls h
  exact ⟨s, hs, hp, hQ s hs⟩

lemma reach_of_run (h : sys.run sys.init ls = some s) : Reach sys anyStep s := reach_of_runWith h

lemma exists_reach_of_run {P : State → Prop} [DecidablePred P] (ls : List Label)
    (h : (sys.run sys.init ls).any (fun s => decide (P s)) = true) :
    ∃ s, Reach sys anyStep s ∧ P s := exists_reach_of_runWith ls h

end

end TransSys

/-- What a run comes to, when evaluation says so. -/
lemma exists_of_any {α : Type} {x : Option α} {P : α → Prop} [DecidablePred P]
    (h : x.any (fun a => decide (P a)) = true) : ∃ a, x = some a ∧ P a := by
  obtain ⟨a, ha, hp⟩ := (Option.any_eq_true _ _).mp h
  exact ⟨a, ha, of_decide_eq_true hp⟩

lemma exists_of_any_any {α β : Type} {x : Option α} {f : α → Option β} {P : α → β → Prop}
    [∀ a b, Decidable (P a b)] (h : x.any (fun a => (f a).any fun b => decide (P a b)) = true) :
    ∃ a b, x = some a ∧ f a = some b ∧ P a b := by
  obtain ⟨a, ha, h⟩ := (Option.any_eq_true _ _).mp h
  obtain ⟨b, hb, hp⟩ := exists_of_any h
  exact ⟨a, b, ha, hb, hp⟩

lemma forall_mem_set {α : Type} {P : α → Prop} {l : List α} (h : ∀ a ∈ l, P a) {i : ℕ} {b : α}
    (hb : P b) : ∀ a ∈ l.set i b, P a := by
  intro a ha
  rcases List.mem_or_eq_of_mem_set ha with ha | rfl
  · exact h a ha
  · exact hb

lemma forall_mem_concat {α : Type} {P : α → Prop} {l : List α} (h : ∀ a ∈ l, P a) {b : α}
    (hb : P b) : ∀ a ∈ l ++ [b], P a := by
  simpa [or_imp, forall_and] using ⟨h, hb⟩

lemma update_eq_some {ι α : Type} [DecidableEq ι] {f : ι → Option α} {i j : ι} {x : Option α}
    {a : α} (h : Function.update f i x j = some a) :
    (j = i ∧ x = some a) ∨ (j ≠ i ∧ f j = some a) := by
  by_cases hj : j = i
  · subst hj
    rw [Function.update_self] at h
    exact .inl ⟨rfl, h⟩
  · rw [Function.update_of_ne hj] at h
    exact .inr ⟨hj, h⟩

lemma map_set_of_eq {α β : Type} {f : α → β} {l : List α} {i : ℕ} {a b : α}
    (ha : l[i]? = some a) (hf : f b = f a) : (l.set i b).map f = l.map f := by
  obtain ⟨hi, rfl⟩ := List.getElem?_eq_some_iff.mp ha
  rw [List.map_set, hf, ← List.getElem_map f (h := by simpa using hi), List.set_getElem_self]
