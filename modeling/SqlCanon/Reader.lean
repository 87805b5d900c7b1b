/-!
# Readers

A reader takes what it recognizes off the front of a list, or fails and takes nothing.
-/

namespace SqlCanon

abbrev Reader (σ : Type) := StateT (List σ) Option

namespace Reader
variable {σ α : Type}

def next (read : σ → Option α) : Reader σ α := fun xs =>
  match xs with
  | x :: rest => (read x).map fun a => (a, rest)
  | [] => none

def takeWhile (p : σ → Bool) : Reader σ (List σ) := fun xs =>
  some (xs.takeWhile p, xs.dropWhile p)

def option (r : Reader σ α) : Reader σ (Option α) := fun xs =>
  match r xs with
  | some (a, rest) => some (some a, rest)
  | none => some (none, xs)

/-- Whether `r` succeeds. If so, what it reads is taken. -/
def isNext (r : Reader σ α) : Reader σ Bool := Option.isSome <$> option r

/-- Whether `r` would succeed. Nothing is taken. -/
def isAhead (r : Reader σ α) : Reader σ Bool := fun xs => some ((r xs).isSome, xs)

def isAtEnd : Reader σ Bool := fun xs => some (xs.isEmpty, xs)

/-- What `r` reads after `start`, if that is next. -/
def after? (start : Reader σ Unit) (r : Reader σ α) : Reader σ (Option α) := do
  if ← isNext start then some <$> r else return none

/-- What `r` reads, again and again until there is no more. It has to take something every time. -/
def repeated (r : Reader σ (Option α)) (xs : List σ) : Option (List α × List σ) :=
  match r xs with
  | some (some a, rest) =>
    if rest.length < xs.length then (repeated r rest).map fun (as, rest) => (a :: as, rest)
    else none
  | some (none, rest) => some ([], rest)
  | none => none
termination_by xs.length

def sepBy (r : Reader σ α) (separator : Reader σ Unit) : Reader σ (List α) := do
  let a ← r
  let as ← repeated (after? separator r)
  return a :: as

def whole? (r : Reader σ α) (xs : List σ) : Option α :=
  match r xs with
  | some (a, []) => some a
  | _ => none

end Reader

end SqlCanon
