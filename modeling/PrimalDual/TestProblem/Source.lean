/-
  PrimalDual.TestProblem.Source
  ─────────────────────────────
  **SOURCES OF RANDOM DRAWS.**

  A generator of test problems draws positions, uniform numbers and normal
  numbers from a `Source`.  Two sources are supplied: a *script*, which
  delivers prepared values and logs what was asked of it, and a seeded
  pseudo-random generator.

  Whatever the source, a request that no source could meet is refused
  (`choosable`): a negative size, or more positions than the population has.
-/
import PrimalDual.Arithmetic.Control

namespace PrimalDual

/-! ## §1. The interface. -/

/-- A source of random draws. -/
structure Source (m : Type → Type) (R : Type) where
  /-- `size` positions below `population`, with or without repetition. -/
  choice : (population : Nat) → (size : Int) → (replacement : Bool) → m (List Nat)
  /-- `size` numbers between `low` and `high`. -/
  uniform : (low high : R) → (size : Int) → m (List R)
  /-- Standard normal numbers for a tensor of a shape, in row-major order. -/
  normal : (shape : List Int) → m (List R)

namespace Source

/-- A choice that can be met. -/
def choosable (population : Nat) (size : Int) (replacement : Bool) : Bool :=
  0 ≤ size && (size = 0 || (0 < population && (replacement || size ≤ population)))

/-- The number of entries of a shape without negative lengths. -/
def entries? (shape : List Int) : Option Nat :=
  if shape.any (· < 0) then none else some (shape.map Int.toNat).prod

end Source

/-! ## §2. Scripts. -/

/-- A request made to a source. -/
inductive DrawRequest (R : Type) where
  | choice (population : Nat) (size : Int) (replacement : Bool)
  | uniform (low high : R) (size : Int)
  | normal (shape : List Int)

/-- Prepared draws, a queue for each method, and the log of the requests.  A
prepared position may be negative: it then counts from the end. -/
structure Script (R : Type) where
  choices : List (List Int)
  uniforms : List (List R)
  normals : List (List R)
  log : Array (DrawRequest R)

namespace Script

variable {R : Type} [Control R]

/-- A computation that draws from a script. -/
abbrev Draw (R : Type) : Type → Type := ExceptT (Failure R) (StateM (Script R))

/-- `n` values, the prepared ones repeated as often as needed. -/
def repeated {β : Type} (n : Nat) (prepared : Option (List β)) : Except (Failure R) (List β) :=
  match n, prepared with
  | 0, _ => .ok []
  | _, none | _, some [] => .error .drawSize
  | n, some (a :: l) => .ok ((List.range n).map fun i => (a :: l).getD (i % (l.length + 1)) a)

/-- Writes a request into the log. -/
def record (request : DrawRequest R) : Draw R Unit :=
  modify fun s => { s with log := s.log.push request }

/-- A number of values to deliver, which must not be negative. -/
def count (size : Int) : Except (Failure R) Nat :=
  if size < 0 then .error .drawSize else .ok size.toNat

/-- The position below `population` that a prepared integer names. -/
def position (population : Nat) (i : Int) : Except (Failure R) Nat :=
  let p := if i < 0 then i + population else i
  if 0 ≤ p ∧ p < population then .ok p.toNat else .error .axisRange

/-- The source that reads from the script. -/
def source : Source (Draw R) R where
  choice population size replacement := do
    record (.choice population size replacement)
    if !Source.choosable population size replacement then throw .drawSize
    let s ← get
    set { s with choices := s.choices.tail }
    let prepared ← liftM (repeated (R := R) size.toNat s.choices.head?)
    liftM (prepared.mapM (position (R := R) population))
  uniform low high size := do
    record (.uniform low high size)
    let n ← liftM (count (R := R) size)
    let s ← get
    set { s with uniforms := s.uniforms.tail }
    let us ← liftM (repeated (R := R) n s.uniforms.head?)
    return us.map fun u => low + (high - low) * u
  normal shape := do
    record (.normal shape)
    match Source.entries? shape with
    | none => throw .drawSize
    | some n =>
      let s ← get
      set { s with normals := s.normals.tail }
      liftM (repeated (R := R) n s.normals.head?)

end Script

/-! ## §3. A pseudo-random source. -/

namespace Seeded

/-- A computation that draws from a generator. -/
abbrev Draw : Type → Type := ExceptT (Failure Float) (StateM StdGen)

/-- A natural number below `n`. -/
def below (n : Nat) : Draw Nat := do
  let (k, next) := randNat (← get) 0 (n - 1)
  set next
  return k

/-- A multiple of `2⁻²⁰` in the unit interval. -/
def fraction : Draw Float := do
  return Float.ofNat (← below (1 <<< 20)) / Float.ofNat (1 <<< 20)

/-- `n` draws. -/
def times {β : Type} (d : Draw β) : Nat → Draw (List β)
  | 0 => pure []
  | n + 1 => do return (← d) :: (← times d n)

/-- `n` different members of a list. -/
def sample : Nat → List Nat → Draw (List Nat)
  | 0, _ => pure []
  | n + 1, l => do
    let i ← below l.length
    return l.getD i 0 :: (← sample n (l.eraseIdx i))

/-- An approximately normal number: a centred sum of twelve fractions. -/
def bell : Draw Float := do return (← times fraction 12).foldl (· + ·) (-6)

/-- The source that draws from the generator. -/
def source : Source Draw Float where
  choice population size replacement := do
    if !Source.choosable population size replacement then throw .drawSize
    if replacement then times (below population) size.toNat
    else sample size.toNat (List.range population)
  uniform low high size := do
    if size < 0 then throw .drawSize
    return (← times fraction size.toNat).map fun u => low + (high - low) * u
  normal shape :=
    match Source.entries? shape with
    | none => throw .drawSize
    | some n => times bell n

end Seeded

end PrimalDual
