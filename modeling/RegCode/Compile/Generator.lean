import RegCode.Compile.Fault
import RegCode.Compile.Notice

/-!
# Generating code

The state of a compilation and the steps it is made of. Variables live in one flat environment: a name
stays bound, and keeps its register, after the block that declares it. A step that fails leaves the state
as it is, so the notices up to then are not lost.
-/

namespace RegCode

/-- Names and their registers. No name stands twice. -/
abbrev Environment := List (Bytes × Register)

/-- Binds a name, to a new register if it was bound before. -/
def Environment.bind (env : Environment) (name : Bytes) (r : Register) : Environment :=
  (name, r) :: env.filter (·.1 != name)

structure Generator where
  chunk : Chunk := {}
  registers : RegisterStack := {}
  env : Environment := []
  /-- The source line that code comes from; zero if none is known yet. -/
  line : Int := 0
  notices : Array Notice := #[]
  deriving Repr

abbrev Gen (α : Type) := EStateM CompileFailure Generator α

namespace Gen

def fail {α : Type} (pos : Position) (f : CompileFault) : Gen α := throw (.error ⟨pos, f⟩)

def emit (i : Instruction) : Gen Unit :=
  modify fun g => { g with chunk := g.chunk.write i g.line }

def copy (target source : Register) : Gen Unit := emit (.abc Op.load.code target source 0)

def operate (op : Op) (target left right : Register) : Gen Unit :=
  emit (.abc op.code target left right)

def count : Gen Nat := do return (← get).chunk.code.size

def tell (n : Notice) : Gen Unit := modify fun g => { g with notices := g.notices.push n }

/-- Code comes from the line of `pos` from now on, if it has one. -/
def enter (pos : Position) : Gen Unit :=
  modify fun g => if 0 < pos.line then { g with line := pos.line } else g

def alloc (pos : Position) : Gen Register := do
  match (← get).registers.alloc with
  | some (r, s) =>
    modify fun g => { g with registers := s }
    return r
  | none => fail pos .tooManyRegisters

def free (r : Register) : Gen Unit := do
  match (← get).registers.free r with
  | .ok s => modify fun g => { g with registers := s }
  | .error f => throw (.register f)

def declare (name : Bytes) (r : Register) : Gen Unit :=
  modify fun g => { g with env := g.env.bind name r }

def resolve (name : Bytes) (pos : Position) : Gen Register := do
  match (← get).env.lookup name with
  | some r => return r
  | none => fail pos (.undefinedVariable name)

def loadConst (target : Register) (k : Const) (pos : Position) : Gen Unit := do
  let index := (← get).chunk.consts.size
  if maxConsts ≤ index then fail pos .tooManyConsts
  modify fun g => { g with chunk := g.chunk.addConst (.const k) }
  emit (.abx Op.loadK.code target (UInt16.ofNat index))

/-- Appends a jump that goes nowhere yet, and gives its index. -/
def jump (op : Op) (a : Register) : Gen Nat := do
  let index ← count
  emit (.asbx op.code a 0)
  return index

/-- Lets the jump at `index` go to `target`. -/
def land (index target : Nat) (pos : Position) : Gen Unit := do
  let d : Int := target - index
  if d < -32768 ∨ 32767 < d then fail pos (.jumpTooFar d)
  match (← get).chunk.patchFault? index with
  | some f => throw (.jump f)
  | none => modify fun g => { g with chunk := g.chunk.setSbx index (Int16.ofInt d) }

end Gen

end RegCode
