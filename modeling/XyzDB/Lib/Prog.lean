import Mathlib

/-!
# Programs as trees of steps

A program looks at a shared state, makes changes to it and returns a value or fails. It is a
tree: each inner node is one atomic step, which waits until it is ready, may make one change,
and goes on with what it saw. A change is data, so what a run did is the list of its changes,
each with the state in which it was made (`trace`). A failure does not undo anything.

`wp` is the weakest precondition of a program that runs alone: every change it makes meets `C`
in the state in which it is made, and when it returns, `Q` holds. An invariant `I` may be used at
every step. It is not proved there: `run_watched` turns what the changes of a program are, and
what every such change keeps, into an invariant of its runs.
-/

open List Option

/-- Programs over states `σ` that make changes `δ`, fail with `ε` or return `α`. -/
inductive Prog (ε σ δ α : Type) where
  | ret (a : α)
  | fail (e : ε)
  /-- When `ready`, make a change and go on with the state as it was before it. -/
  | act (ready : σ → Bool) (change : σ → Option δ) (rest : σ → Prog ε σ δ α)

namespace Prog

variable {ε σ δ α β : Type}

def bind : Prog ε σ δ α → (α → Prog ε σ δ β) → Prog ε σ δ β
  | .ret a, f => f a
  | .fail e, _ => .fail e
  | .act ready change rest, f => .act ready change fun s => (rest s).bind f

instance : Monad (Prog ε σ δ) where
  pure := ret
  bind := bind

/-- Something of the state as it is. -/
def ask (f : σ → α) : Prog ε σ δ α := .act (fun _ => true) (fun _ => none) fun s => .ret (f s)

/-- A look at the state that may fail. -/
def query (f : σ → Except ε α) : Prog ε σ δ α :=
  .act (fun _ => true) (fun _ => none) fun s =>
    match f s with
    | .ok a => .ret a
    | .error e => .fail e

/-- A change that follows from the state, and something of the state before it. -/
def makeWith (change : σ → δ) (f : σ → α) : Prog ε σ δ α :=
  .act (fun _ => true) (fun s => some (change s)) fun s => .ret (f s)

def make (c : δ) : Prog ε σ δ Unit := makeWith (fun _ => c) fun _ => ()

/-- A change that waits. -/
def makeWhen (ready : σ → Bool) (c : δ) : Prog ε σ δ Unit :=
  .act ready (fun _ => some c) fun _ => .ret ()

/-- Wait until the state is as asked. -/
def await (ready : σ → Bool) : Prog ε σ δ Unit := .act ready (fun _ => none) fun _ => .ret ()

/-- Run a program for every element of a list, in order. -/
def each (f : α → Prog ε σ δ Unit) : List α → Prog ε σ δ Unit
  | [] => .ret ()
  | x :: xs => (f x).bind fun _ => each f xs

/-- Run `cleanup` at the end, also after a failure. -/
def finally_ : Prog ε σ δ α → Prog ε σ δ Unit → Prog ε σ δ α
  | .ret a, cleanup => cleanup.bind fun _ => .ret a
  | .fail e, cleanup => cleanup.bind fun _ => .fail e
  | .act ready change rest, cleanup => .act ready change fun s => (rest s).finally_ cleanup

inductive Outcome (ε α : Type) where
  | ok (a : α)
  | error (e : ε)
  /-- A step is not ready, and nobody else is there to make it so. -/
  | blocked

section

variable (apply : σ → δ → σ)

/-- The state after a step. -/
def after (change : σ → Option δ) (s : σ) : σ :=
  match change s with
  | some c => apply s c
  | none => s

/-- A program that runs alone. -/
def run : Prog ε σ δ α → σ → Outcome ε α × σ
  | .ret a, s => (.ok a, s)
  | .fail e, s => (.error e, s)
  | .act ready change rest, s =>
    if ready s then (rest s).run (after apply change s) else (.blocked, s)

lemma run_bind (m : Prog ε σ δ β) (f : β → Prog ε σ δ α) (s : σ) : (m >>= f).run apply s =
      match m.run apply s with
      | (.ok b, s') => (f b).run apply s'
      | (.error e, s') => (.error e, s')
      | (.blocked, s') => (.blocked, s') := by
  show (m.bind f).run apply s = _
  induction m generalizing s with
  | ret b => rfl
  | fail e => rfl
  | act ready change rest ih =>
    simp only [bind, run]
    split
    · exact ih s (after apply change s)
    · rfl

lemma run_ask (f : σ → α) (s : σ) : (ask f : Prog ε σ δ α).run apply s = (.ok (f s), s) := rfl

/-- The changes of a run, each with the state in which it was made. -/
def trace : Prog ε σ δ α → σ → List (σ × δ)
  | .ret _, _ => []
  | .fail _, _ => []
  | .act ready change rest, s =>
    if ready s then
      (change s).toList.map (fun c => (s, c)) ++ (rest s).trace (after apply change s)
    else []

/-- **The weakest precondition** of a program that runs alone, for the changes it makes and
what it returns, where `I` holds in every state. -/
def wp (I : σ → Prop) (C : σ → δ → Prop) (Q : α → σ → Prop) : Prog ε σ δ α → σ → Prop
  | .ret a, s => I s → Q a s
  | .fail _, _ => True
  | .act ready change rest, s =>
    I s → ready s = true → (∀ c ∈ change s, C s c) ∧ (rest s).wp I C Q (after apply change s)

end

section

variable {apply : σ → δ → σ} {I : σ → Prop} {C C' : σ → δ → Prop} {Q Q' : α → σ → Prop} {s : σ}
  {m : Prog ε σ δ α}

lemma wp_assume (h : I s → wp apply I C Q m s) : wp apply I C Q m s := by
  cases m with
  | ret | act => exact fun hs => h hs hs
  | fail e => trivial

lemma wp_pure {a : α} (h : I s → Q a s) : wp (ε := ε) apply I C Q (pure a) s := h

lemma wp_done {a : α} : wp (ε := ε) apply I C (fun _ _ => True) (pure a) s := fun _ => trivial

variable {f : β → Prog ε σ δ α}

lemma wp_bind' {m : Prog ε σ δ β} (h : wp apply I C (fun b s => wp apply I C Q (f b) s) m s) :
    wp apply I C Q (m.bind f) s := by
  induction m generalizing s with
  | ret b => exact wp_assume h
  | fail e => trivial
  | act ready change rest ih =>
    intro hs hready
    obtain ⟨hc, hrest⟩ := h hs hready
    exact ⟨hc, ih s hrest⟩

lemma wp_bind {m : Prog ε σ δ β} (h : wp apply I C (fun b s => wp apply I C Q (f b) s) m s) :
    wp apply I C Q (m >>= f) s := wp_bind' h

lemma wp_mono (h : wp apply I C Q m s) (hC : ∀ s c, C s c → C' s c)
    (hQ : ∀ a s, I s → Q a s → Q' a s) : wp apply I C' Q' m s := by
  induction m generalizing s with
  | ret a => exact fun hs => hQ a s hs (h hs)
  | fail e => trivial
  | act ready change rest ih =>
    intro hs hready
    obtain ⟨hc, hrest⟩ := h hs hready
    exact ⟨fun c hmem => hC s c (hc c hmem), ih s hrest⟩

lemma wp_post (h : wp apply I C Q m s) (hQ : ∀ a s, I s → Q a s → Q' a s) :
    wp apply I C Q' m s := wp_mono h (fun _ _ hc => hc) hQ

lemma wp_call {R : β → σ → Prop} {m : Prog ε σ δ β}
    (hm : wp apply I C R m s) (hf : ∀ b s, I s → R b s → wp apply I C Q (f b) s) :
    wp apply I C Q (m >>= f) s := wp_bind (wp_post hm hf)

lemma wp_ask {f : σ → α} (h : I s → Q (f s) s) : wp (ε := ε) apply I C Q (ask f) s :=
  fun hs _ => ⟨fun _ hc => (not_mem_none _ hc).elim, fun _ => h hs⟩

lemma wp_query {f : σ → Except ε α} (h : I s → ∀ a, f s = .ok a → Q a s) :
    wp apply I C Q (query f) s := by
  refine fun hs _ => ⟨fun _ hc => (not_mem_none _ hc).elim, ?_⟩
  dsimp only
  cases hf : f s with
  | ok a => exact fun _ => h hs a hf
  | error e => trivial

lemma wp_makeWith {change : σ → δ} {f : σ → α}
    (h : I s → C s (change s) ∧ (I (apply s (change s)) → Q (f s) (apply s (change s)))) :
    wp (ε := ε) apply I C Q (makeWith change f) s := by
  refine fun hs _ => ⟨fun c hc => ?_, (h hs).2⟩
  cases hc
  exact (h hs).1

lemma wp_make {c : δ} {Q : Unit → σ → Prop} (h : I s → C s c ∧ (I (apply s c) → Q () (apply s c))) :
    wp (ε := ε) apply I C Q (make c) s := wp_makeWith h

lemma wp_makeWhen {ready : σ → Bool} {c : δ} {Q : Unit → σ → Prop}
    (h : I s → ready s = true → C s c ∧ (I (apply s c) → Q () (apply s c))) :
    wp (ε := ε) apply I C Q (makeWhen ready c) s := by
  refine fun hs hready => ⟨fun c' hc => ?_, (h hs hready).2⟩
  cases hc
  exact (h hs hready).1

lemma wp_await {ready : σ → Bool} {Q : Unit → σ → Prop} (h : I s → ready s = true → Q () s) :
    wp (ε := ε) apply I C Q (await ready) s :=
  fun hs hready => ⟨fun _ hc => (not_mem_none _ hc).elim, fun _ => h hs hready⟩

/-- A loop with an invariant that knows what is still to be done. -/
lemma wp_each {J : List β → σ → Prop} {f : β → Prog ε σ δ Unit} : ∀ {xs : List β} {s : σ},
      (∀ x rest s, I s → J (x :: rest) s → wp apply I C (fun _ => J rest) (f x) s) → J xs s →
        wp apply I C (fun _ => J []) (each f xs) s
  | [], _, _, h => fun _ => h
  | x :: xs, _, hf, h =>
    wp_assume fun hs => wp_bind' (wp_post (hf x xs _ hs h) fun _ _ _ h' => wp_each hf h')

lemma wp_finally {cleanup : Prog ε σ δ Unit} (hfail : ∀ s, wp apply I C (fun _ _ => True) cleanup s)
    (h : wp apply I C (fun a s => wp apply I C (fun _ s => Q a s) cleanup s) m s) :
    wp apply I C Q (m.finally_ cleanup) s := by
  induction m generalizing s with
  | ret a => exact wp_bind' (wp_post (wp_assume h) fun _ _ _ hq _ => hq)
  | fail e => exact wp_bind' (wp_post (hfail s) fun _ _ _ _ => trivial)
  | act ready change rest ih =>
    intro hs hready
    obtain ⟨hc, hrest⟩ := h hs hready
    exact ⟨hc, ih s hrest⟩

/-- **Invariants of a run** that is watched: `watch` follows the changes. What is kept by every
change that meets `C` and the condition `ok` is kept by a run all of whose changes meet `ok`. -/
theorem run_watched {τ : Type} {J : σ → τ → Prop} {ok : σ → δ → Prop}
    (watch : τ → σ × δ → τ) {t : τ}
    (hstep : ∀ s t c, J s t → C s c → ok s c → J (apply s c) (watch t (s, c)))
    (hI : ∀ s t, J s t → I s) (hs : J s t) (h : wp apply I C Q m s)
    (hok : ∀ x ∈ m.trace apply s, ok x.1 x.2) :
    J (m.run apply s).2 ((m.trace apply s).foldl watch t) := by
  induction m generalizing s t with
  | ret | fail => exact hs
  | act ready change rest ih =>
    rw [run, trace]
    split
    · next hready =>
      obtain ⟨hc, hrest⟩ := h (hI s t hs) hready
      simp only [trace, if_pos hready, List.mem_append, List.mem_map] at hok
      rw [List.foldl_append]
      refine ih s ?_ hrest fun x hx => hok x (.inr hx)
      unfold after
      split
      · next c hchange =>
        rw [hchange]
        exact hstep s t c hs (hc c hchange) (hok (s, c) (.inl ⟨c, by simp [hchange], rfl⟩))
      · next hchange =>
        rw [hchange]
        exact hs
    · exact hs

/-- What the changes of a run are, when an invariant is kept by all of them. -/
lemma trace_invariant {J : σ → Prop}
    (hstep : ∀ s c, J s → C s c → J (apply s c)) (hI : ∀ s, J s → I s) (hs : J s)
    (h : wp apply I C Q m s) : ∀ x ∈ m.trace apply s, J x.1 ∧ C x.1 x.2 := by
  induction m generalizing s with
  | ret | fail => exact fun _ hx => by cases hx
  | act ready change rest ih =>
    intro x hx
    rw [trace] at hx
    split at hx
    · next hready =>
      obtain ⟨hc, hrest⟩ := h (hI s hs) hready
      rcases mem_append.mp hx with hx | hx
      · obtain ⟨c, hmem, rfl⟩ := mem_map.mp hx
        exact ⟨hs, hc c (mem_toList.mp hmem)⟩
      · refine ih s ?_ hrest x hx
        unfold after
        split
        · next c hchange => exact hstep s c hs (hc c hchange)
        · exact hs
    · cases hx

end

end Prog
