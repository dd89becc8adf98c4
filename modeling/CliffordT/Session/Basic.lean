/-
A session: angles in, gate words out.

A session holds a gate table and a seed, remembers the words it has searched for, and keeps account
of the phases in the words it has given out and of whether all of them were good. An angle with a
closed form needs no search and is not remembered. In timer mode every other angle is searched
afresh and nothing is remembered.

What a session reports is kept in it, in order.
-/
import CliffordT.Approximation.Search
import CliffordT.Random.KeyHash
import CliffordT.Unitary.ClosedForm
import CliffordT.Unitary.Synthesis

namespace CliffordT

structure Session where
  ctx : Context
  table : GateTable
  seed : UInt64
  /-- Whether each word is multiplied out and compared. -/
  check : Bool
  /-- Whether each approximation is reported in detail. -/
  details : Bool
  /-- Whether every angle is searched afresh. -/
  timer : Bool
  /-- The words searched for, with the keys of their angles; no key occurs twice. -/
  cache : List (String × Word)
  /-- The phases `W` and `w` of all words given out, in multiples of `π/8`. -/
  phaseCount : Int
  /-- Whether every word so far passed its check and came within the accuracy. -/
  valid : Bool
  /-- The messages so far. -/
  reports : Array Report

abbrev InSession := ExceptT Fault (StateM Session)

/-- The outcome of a search: a word and the approximation that it stands for. -/
structure Found where
  word : Word
  approximation : Approximation

namespace Session

/-! ## Opening a session -/

/-- What a verbose session says about its settings. -/
def settingsReports (ctx : Context) (seed : UInt64) : List String :=
  ["tolerance for float equality: " ++ ctx.tol.toDecimal 3,
    "scale exponents: " ++ toString ctx.kmin ++ "..=" ++ toString ctx.kmax,
    "factoring effort: " ++ toString ctx.factorEffort,
    "primality test iterations: " ++ toString ctx.fermatRounds,
    "working precision: " ++ toString ctx.prec ++ " bits",
    "seed: " ++ toString seed.toNat]

/-- A session over a table, which must not be empty. The seed stands in for one that the options do
not give. -/
def start (o : Options) (ctx : Context) (table : GateTable) (seed : UInt64) :
    Except Fault Session :=
  if table.isEmpty then .error (.config "gate table is empty")
  else
    let seed := o.seed.getD seed
    let reports := if o.verbose then settingsReports ctx seed else []
    .ok
      { ctx
        table
        seed
        check := o.check
        details := o.details
        timer := false
        cache := []
        phaseCount := 0
        valid := true
        reports := (reports.map fun text => ⟨.info, text⟩).toArray }

/-! ## What is kept -/

/-- The total phase of the words given out, in multiples of `π/8` and modulo 16. -/
def phase (s : Session) : Nat := (s.phaseCount % 16).toNat

def cached? (s : Session) (key : String) : Option Word := s.cache.lookup key

/-- The key of an angle: its decimal digits, as many as the precision holds. -/
def keyOf (s : Session) (angle : BinFloat) : String := angle.toDecimal (s.ctx.prec * 3 / 10)

def phaseOf : Word → Int
  | [] => 0
  | 'W' :: rest => 2 + phaseOf rest
  | 'w' :: rest => -1 + phaseOf rest
  | _ :: rest => phaseOf rest

def info (text : String) : InSession Unit :=
  modify fun s => { s with reports := s.reports.push ⟨.info, text⟩ }

def emit (word : Word) : InSession Word := do
  modify fun s => { s with phaseCount := s.phaseCount + phaseOf word }
  return word

/-! ## Answers -/

def closedForm? (angle : BinFloat) : InSession (Option Word) := do
  let s ← get
  match ClosedForm.find? (angle / s.ctx.pi) s.ctx.eps with
  | none => return none
  | some word =>
    if s.details then
      info ("angle " ++ toString angle ++ " is a multiple of π/4, answer is known exactly")
    return some word

/-- Searches for a word; the messages of the search are the second part. The rotation by an angle
has the upper left entry `e^{iθ}` with `θ = -angle/2`. -/
def searchWord (s : Session) (angle : BinFloat) (key : String) :
    Except Fault Found × Array Report :=
  let theta := angle / s.ctx.int (-2)
  let run : Search Found := do
    match ← Approximation.find theta s.ctx with
    | none => throw (.searchExhausted (toString angle) s.ctx.kmax)
    | some a => return ⟨← a.unitary.synthesize s.table, a⟩
  let (found, state) := run.run ⟨KeyHash.generator s.seed key, #[]⟩
  (found, state.reports)

def search (angle : BinFloat) (key : String) : InSession Found := do
  let (found, reports) := (← get).searchWord angle key
  modify fun s => { s with reports := s.reports ++ reports }
  found

def pointText (v : Vec2) : String := "(" ++ v.x.toDecimal 10 ++ ", " ++ v.y.toDecimal 10 ++ ")"

/-- What a detailed session says about an approximation and its final word. -/
def detailReports (angle : BinFloat) (a : Approximation) (word : Word) : List String :=
  ["angle = " ++ angle.toDecimal 10,
    "matrix =\n" ++ toString a.unitary,
    "u decimal value = " ++ pointText a.u,
    "t decimal value = " ++ pointText a.t,
    "error = " ++ a.error.toDecimal 5,
    "T count = " ++ toString (word.count 'T')]

/-- Holds when a word has exactly the unitary of an approximation. -/
def reproduces (word : Word) (a : Approximation) : Bool :=
  match Unitary.ofWord word with
  | .ok m => m == a.unitary
  | .error _ => false

/-- Takes an outcome into the session, under a key if it is to be remembered, and gives its word in
simplified form. -/
def record (angle : BinFloat) (key : Option String) (found : Found) : InSession Word := do
  let a := found.approximation
  let word := (Word.fullSimplify found.word).dropIdentity
  if (← get).check then
    let good := reproduces word a
    info ("check flag = " ++ (if good then "1" else "0"))
    modify fun s => { s with valid := s.valid && good }
  modify fun s => { s with valid := s.valid && a.error < s.ctx.eps }
  if (← get).details then (detailReports angle a word).forM info
  match key with
  | some k => modify fun s => { s with cache := (k, word) :: s.cache }
  | none => pure ()
  return word

def searchAndRecord (angle : BinFloat) (key : String) (remember : Bool) : InSession Word := do
  record angle (if remember then some key else none) (← search angle key)

def word (angle : BinFloat) : InSession Word := do
  match ← closedForm? angle with
  | some w => emit w
  | none =>
    let s ← get
    let key := s.keyOf angle
    if s.timer then emit (← searchAndRecord angle key false)
    else
      match s.cached? key with
      | some w => emit w
      | none => emit (← searchAndRecord angle key true)

/-- In timer mode every angle is searched afresh. -/
def setTimer (on : Bool) : InSession Unit := modify fun s => { s with timer := on }

end Session

end CliffordT
