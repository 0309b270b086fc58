import Mathlib

/-!
# Backtracking parser combinators

A parser takes the characters that are left and returns what it leaves of them with its
value, an `error` after which an alternative may be tried, or a `failure` after which none
is. Both carry the input at which parsing stopped.

The combinators are those of a common Rust library, with its conventions: `opt` and the loop
of `separatedList1` turn an error into "nothing here", `alt` reports the error of its last
alternative, and keywords have no word boundary.

A loop runs on fuel. Every turn of it takes at least one character, so the length of the
input is always enough.
-/

namespace Nom

open List

/-- The characters of a text are checked one by one, not all there are. -/
instance (priority := high) decidableForallMem {P : Char → Prop} [DecidablePred P] {s : List Char} :
    Decidable (∀ c ∈ s, P c) := decidableBAll P s

/-- Why a parser stopped, and where. -/
inductive Err where
  | error (input : List Char)
  | failure (input : List Char)
  deriving DecidableEq

abbrev Parser (α : Type) := List Char → Except Err (List Char × α)

section

variable {ε α β γ : Type} {f : α → Except ε β} {x : Except ε α}

lemma bind_eq_ok {b : β} : (x >>= f) = .ok b ↔ ∃ a, x = .ok a ∧ f a = .ok b := by
  cases x with
  | error e => exact ⟨nofun, nofun⟩
  | ok a => exact ⟨fun h => ⟨a, rfl, h⟩, fun ⟨_, h, hb⟩ => by cases h; exact hb⟩

lemma map_eq_ok {f : α → β} {b : β} : f <$> x = .ok b ↔ ∃ a, x = .ok a ∧ f a = b := by
  cases x with
  | error e => exact ⟨nofun, nofun⟩
  | ok a => exact ⟨fun h => ⟨a, rfl, Except.ok.inj h⟩, fun ⟨_, h, hb⟩ => by cases h; rw [← hb]; rfl⟩

lemma pure_eq_ok {a b : α} : (pure a : Except ε α) = .ok b ↔ a = b := Except.ok.injEq a b ▸ Iff.rfl

lemma exists_ok_of_any {p : α → Bool} (h : x.toOption.any p = true) :
    ∃ a, x = .ok a ∧ p a = true := by
  cases x with
  | error e => cases h
  | ok a => exact ⟨a, rfl, h⟩

variable {l' : List β}

lemma map_of_mapM {g : β → γ} {h : α → γ} {l : List α}
    (hf : ∀ a b, f a = .ok b → g b = h a) (hl : l.mapM f = .ok l') : l'.map g = l.map h := by
  induction l generalizing l' with
  | nil =>
    rw [mapM_nil, pure_eq_ok] at hl
    rw [← hl, map_nil, map_nil]
  | cons a l ih =>
    simp only [mapM_cons, bind_eq_ok, pure_eq_ok] at hl
    obtain ⟨b, hb, bs, hbs, rfl⟩ := hl
    rw [map_cons, map_cons, hf a b hb, ih hbs]

lemma forall_mem_of_mapM {P : β → Prop} {Q : α → Prop} {l : List α}
    (hf : ∀ a b, f a = .ok b → (P b ↔ Q a)) (hl : l.mapM f = .ok l') :
    (∀ b ∈ l', P b) ↔ ∀ a ∈ l, Q a := by
  induction l generalizing l' with
  | nil =>
    rw [mapM_nil, pure_eq_ok] at hl
    simp [← hl]
  | cons a l ih =>
    simp only [mapM_cons, bind_eq_ok, pure_eq_ok] at hl
    obtain ⟨b, hb, bs, hbs, rfl⟩ := hl
    rw [forall_mem_cons, forall_mem_cons, hf a b hb, ih hbs]

lemma flatMap_of_mapM {g : β → List γ} {h : α → List γ} {l : List α}
    (hf : ∀ a b, f a = .ok b → g b = h a) (hl : l.mapM f = .ok l') :
    l'.flatMap g = l.flatMap h := by
  rw [flatMap_def, flatMap_def, map_of_mapM hf hl]

lemma flatMap_eq_nil_of_mapM {g : β → List γ} {l : List α}
    (hf : ∀ a b, f a = .ok b → g b = []) (hl : l.mapM f = .ok l') : l'.flatMap g = [] := by
  rw [flatMap_of_mapM (h := fun _ => []) hf hl]
  simp

end

/-- The whitespace that parsers skip. -/
def isMultispace (c : Char) : Bool := c == ' ' || c == '\t' || c == '\r' || c == '\n'

def isAsciiDigit (c : Char) : Bool := '0' ≤ c && c ≤ '9'

section

variable {α β γ : Type}

def multispace0 : Parser Unit := fun input => .ok (input.dropWhile isMultispace, ())

def char (c : Char) : Parser Char
  | [] => .error (.error [])
  | d :: rest => if d = c then .ok (rest, c) else .error (.error (d :: rest))

def oneOf (cs : List Char) : Parser Char
  | [] => .error (.error [])
  | d :: rest => if d ∈ cs then .ok (rest, d) else .error (.error (d :: rest))

def takeWhile1 (p : Char → Bool) : Parser (List Char) := fun input =>
  if (input.takeWhile p) = [] then .error (.error input)
  else .ok (input.dropWhile p, input.takeWhile p)

def tag (t : List Char) : Parser (List Char) := fun input =>
  if t.isPrefixOf input then .ok (input.drop t.length, t) else .error (.error input)

/-- `tag_no_case`, for a tag of ASCII characters. -/
def tagNoCase (t : List Char) : Parser (List Char) := fun input =>
  if (input.take t.length).map Char.toLower = t.map Char.toLower then
    .ok (input.drop t.length, input.take t.length)
  else .error (.error input)

variable (p : Parser α)

def map (f : α → β) : Parser β := fun input => do
  let (input, a) ← p input
  return (input, f a)

def value (b : β) (p : Parser α) : Parser β := map p fun _ => b

def preceded (q : Parser β) : Parser β := fun input => do
  let (input, _) ← p input
  q input

def delimited (q : Parser β) (r : Parser γ) : Parser β := fun input => do
  let (input, _) ← p input
  let (input, b) ← q input
  let (input, _) ← r input
  return (input, b)

def pair (q : Parser β) : Parser (α × β) := fun input => do
  let (input, a) ← p input
  let (input, b) ← q input
  return (input, (a, b))

/-- `opt`: an error is taken for absence, a failure is passed on. -/
def opt : Parser (Option α) := fun input =>
  match p input with
  | .ok (rest, a) => .ok (rest, some a)
  | .error (.error _) => .ok (input, none)
  | .error (.failure e) => .error (.failure e)

/-- `alt`: the first alternative that does not end in an error. -/
def alt (q : Parser α) : Parser α := fun input =>
  match p input with
  | .error (.error _) => q input
  | r => r

/-- `not(peek(p))`. -/
def notPeek : Parser Unit := fun input =>
  match p input with
  | .ok _ => .error (.error input)
  | .error (.error _) => .ok (input, ())
  | .error (.failure e) => .error (.failure e)

/-- `recognize`: what a parser took. -/
def recognize : Parser (List Char) := fun input => do
  let (rest, _) ← p input
  return (rest, input.take (input.length - rest.length))

/-- The loop of `separated_list1`. -/
def separatedLoop (sep : Parser α) (item : Parser β) :
    ℕ → List Char → List β → Except Err (List Char × List β)
  | 0, input, res => .ok (input, res.reverse)
  | fuel + 1, input, res =>
    match sep input with
    | .error (.error _) => .ok (input, res.reverse)
    | .error (.failure e) => .error (.failure e)
    | .ok (input₁, _) =>
      -- a separator that takes nothing would loop
      if input₁.length = input.length then .error (.error input₁)
      else
        match item input₁ with
        | .error (.error _) => .ok (input, res.reverse)
        | .error (.failure e) => .error (.failure e)
        | .ok (input₂, b) => separatedLoop sep item fuel input₂ (b :: res)

def separatedList1 (sep : Parser α) (item : Parser β) : Parser (List β) := fun input => do
  let (input, b) ← item input
  separatedLoop sep item input.length input [b]

/-- A parser between whitespace. -/
def ws : Parser α := delimited multispace0 p multispace0

end

end Nom
