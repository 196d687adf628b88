import RegCode.Proofs.Fields
import RegCode.Proofs.Scope

/-!
# Code without patching

The code of a program as a relation between its text and the finished instructions. A jump is written with
its displacement at once, since the code it goes over is at hand; otherwise the rules follow the text. Along
with the code they give the constants, the number of registers in use, and where the code of each
declaration lies.
-/

namespace RegCode

/-- An instruction. A copy that is made by an assignment knows which declaration it assigns to. -/
structure Piece where
  instruction : Instruction
  assigned : Option Nat := none

namespace Piece

def load (target : Register) (index : Nat) : Piece :=
  ⟨.abx Op.loadK.code target (UInt16.ofNat index), none⟩

def copy (target source : Register) : Piece := ⟨.abc Op.load.code target source 0, none⟩

def assign (cell : Nat) (source : Register) : Piece :=
  ⟨.abc Op.load.code (UInt8.ofNat cell) source 0, some cell⟩

def operate (op : Op) (target left right : Register) : Piece := ⟨.abc op.code target left right, none⟩

def print (r : Register) : Piece := ⟨.abc Op.print.code r 0 0, none⟩

def jump (d : Int) : Piece := ⟨.asbx Op.jmp.code 0 (Int16.ofInt d), none⟩

def jumpUnless (r : Register) (d : Int) : Piece := ⟨.asbx Op.jmpIfNot.code r (Int16.ofInt d), none⟩

end Piece

/-- Where the code of a declaration lies: its first instruction, the one behind its last, and the start of
the outermost loop around it, or its own start if there is none. -/
structure Site where
  loop : Nat
  first : Nat
  stop : Nat
  deriving DecidableEq

def Site.shift (n : Nat) (s : Site) : Site := ⟨n + s.loop, n + s.first, n + s.stop⟩

structure Fragment where
  code : List Piece := []
  consts : List Const := []
  sites : List Site := []
  peak : Nat := 0

namespace Fragment

def append (F G : Fragment) : Fragment where
  code := F.code ++ G.code
  consts := F.consts ++ G.consts
  sites := F.sites ++ G.sites.map (·.shift F.code.length)
  peak := max F.peak G.peak

instance : Append Fragment := ⟨append⟩

@[simp] theorem code_append (F G : Fragment) : (F ++ G).code = F.code ++ G.code := rfl

@[simp] theorem consts_append (F G : Fragment) : (F ++ G).consts = F.consts ++ G.consts := rfl

@[simp] theorem sites_append (F G : Fragment) :
    (F ++ G).sites = F.sites ++ G.sites.map (·.shift F.code.length) := rfl

@[simp] theorem peak_append (F G : Fragment) : (F ++ G).peak = max F.peak G.peak := rfl

@[grind =] theorem size_append (F G : Fragment) : (F ++ G).code.length = F.code.length + G.code.length :=
  List.length_append

/-- A register is taken while `depth` of them are in use. -/
def take (depth : Nat) : Fragment := { peak := depth + 1 }

def one (p : Piece) : Fragment := { code := [p] }

/-- A constant is put behind `index` others and loaded. -/
def constant (target : Register) (index : Nat) (k : Const) : Fragment :=
  { code := [.load target index], consts := [k] }

@[simp] theorem code_take (depth : Nat) : (take depth).code = [] := rfl

@[simp] theorem consts_take (depth : Nat) : (take depth).consts = [] := rfl

@[simp] theorem code_one (p : Piece) : (one p).code = [p] := rfl

@[simp] theorem consts_one (p : Piece) : (one p).consts = [] := rfl

@[grind =] theorem size_one (p : Piece) : (one p).code.length = 1 := rfl

@[simp] theorem code_constant (t : Register) (k : Nat) (v : Const) : (constant t k v).code = [.load t k] := rfl

@[simp] theorem consts_constant (t : Register) (k : Nat) (v : Const) : (constant t k v).consts = [v] := rfl

def moved (target source : Register) : Fragment :=
  if source = target then {} else one (.copy target source)

def stored (cell : Nat) (source : Register) : Fragment :=
  if source = UInt8.ofNat cell then {} else one (.assign cell source)

def declared (F : Fragment) : Fragment := { F with sites := [⟨0, 0, F.code.length⟩] }

def looped (F : Fragment) : Fragment := { F with sites := F.sites.map fun s => { s with loop := 0 } }

@[simp] theorem code_declared (F : Fragment) : F.declared.code = F.code := rfl

@[simp] theorem code_looped (F : Fragment) : F.looped.code = F.code := rfl

@[grind =] theorem size_looped (F : Fragment) : F.looped.code.length = F.code.length := rfl

end Fragment

namespace Scope

/-- The value in `r` has to be brought to `target`, because it is that of a variable which `e` assigns. -/
def mustKeep (S : Scope) (target r : Register) (e : Expr) : Bool := r != target && S.assigns r e

/-- The value in `r` is brought where `e` does not change it. -/
def kept (S : Scope) (target r : Register) (e : Expr) : Fragment :=
  if S.mustKeep target r e then .one (.copy target r) else {}

/-- Where the value in `r` is while `e` is evaluated. -/
def keptIn (S : Scope) (target r : Register) (e : Expr) : Register :=
  if S.mustKeep target r e then target else r

@[simp] theorem consts_kept (S : Scope) (t r : Register) (e : Expr) : (S.kept t r e).consts = [] := by
  unfold kept
  split <;> rfl

theorem keptIn_safe {S : Scope} {t r : Register} {e : Expr} (hr : r = t ∨ r.toNat < t.toNat)
    (he : S.Below t.toNat e) :
    (S.keptIn t r e).toNat ≤ t.toNat ∧ S.assigns (S.keptIn t r e) e = false := by
  unfold keptIn
  by_cases hk : S.mustKeep t r e = true
  · rw [if_pos hk]
    exact ⟨Nat.le_refl _, he.assigns_eq_false⟩
  · rw [if_neg hk]
    rcases hr with rfl | hr
    · exact ⟨Nat.le_refl _, he.assigns_eq_false⟩
    · refine ⟨Nat.le_of_lt hr, ?_⟩
      have hne : r ≠ t := by
        rintro rfl
        omega
      simpa [mustKeep, hne] using hk

end Scope

/-- The code of an expression while `depth` registers and `base` constants are in use, and the register its
value is in at the end. -/
inductive ExprCode (S : Scope) : (depth base : Nat) → Expr → (target : Register) → Fragment → Register → Prop
  | literal {d k p v t} : k < maxConsts →
      ExprCode S d k (.literal p v) t (.constant t k v.const) t
  | name {d k p n c t} : S.names n = some c →
      ExprCode S d k (.name p n) t {} (UInt8.ofNat c)
  | group {d k p e t F r} : ExprCode S d k e t F r → ExprCode S d k (.group p e) t F r
  | folded {d k p op left right x t} : Expr.fold? op left right = some x → k < maxConsts →
      ExprCode S d k (.binary p op left right) t (.constant t k (.float x)) t
  | binary {d k p op o left right t F a G b} : Expr.fold? op left right = none → op.operation? = some o →
      ExprCode S d k left t F a → d < maxRegisters →
      ExprCode S (d + 1) (k + F.consts.length) right (UInt8.ofNat d) G b →
      ExprCode S d k (.binary p op left right) t
        (F ++ S.kept t a right ++ .take d ++ G ++ .one (.operate o t (S.keptIn t a right) b)) t
  | negated {d k p e c t} : e.negate? = some c → k < maxConsts →
      ExprCode S d k (.unary p .minus e) t (.constant t k c) t
  | minus {d k p e t F a} : e.negate? = none → ExprCode S d k e t F a → d < maxRegisters →
      k + F.consts.length < maxConsts →
      ExprCode S d k (.unary p .minus e) t
        (F ++ .take d ++ .constant (UInt8.ofNat d) (k + F.consts.length) (.int 0) ++
          .one (.operate .sub t (UInt8.ofNat d) a)) t
  | bang {d k p e t F a} : ExprCode S d k e t F a → d < maxRegisters →
      k + F.consts.length < maxConsts →
      ExprCode S d k (.unary p .bang e) t
        (F ++ .take d ++ .constant (UInt8.ofNat d) (k + F.consts.length) (.int 0) ++
          .one (.operate (.compare .eq) t a (UInt8.ofNat d))) t
  | assign {d k p n c e t F a} : S.names n = some c → ExprCode S d k e t F a →
      ExprCode S d k (.assign p n e) t (F ++ .stored c a) (UInt8.ofNat c)

/-- The code of an expression whose value goes to the next register, behind the variables. -/
def NextCode (S : Scope) (cells base : Nat) (e : Expr) (F : Fragment) (r : Register) : Prop :=
  cells < maxRegisters ∧ ∃ G, ExprCode S (cells + 1) base e (UInt8.ofNat cells) G r ∧ F = .take cells ++ G

def Reachable (d : Int) : Prop := -32768 ≤ d ∧ d ≤ 32767

instance (d : Int) : Decidable (Reachable d) := inferInstanceAs (Decidable (_ ∧ _))

mutual

/-- The code of a statement while `base` constants are in use. -/
inductive StmtCode : Scope → (base : Nat) → Stmt → Fragment → Prop
  | print {S k p e F r} : NextCode S S.cells k e F r →
      StmtCode S k (.print p e) (F ++ .one (.print r))
  | declare {S k p n q} : S.cells < maxRegisters →
      StmtCode S k (.var p n q none) (Fragment.take S.cells).declared
  | init {S k p n q e F r} : NextCode (S.declare n) S.cells k e F r →
      StmtCode S k (.var p n q (some e)) (F ++ .moved (UInt8.ofNat S.cells) r).declared
  | expr {S k p e F r} : NextCode S S.cells k e F r → StmtCode S k (.expr p e) F
  | block {S k p body F} : StmtsCode S k body F → StmtCode S k (.block p body) F
  | ifThen {S k p e yes F r Y} : NextCode S S.cells k e F r →
      StmtCode S (k + F.consts.length) yes Y → Reachable (Y.code.length + 1) →
      StmtCode S k (.ifThen p e yes) (F ++ .one (.jumpUnless r (Y.code.length + 1)) ++ Y)
  | ifElse {S k p e yes no F r Y N} : NextCode S S.cells k e F r →
      StmtCode S (k + F.consts.length) yes Y → Reachable (Y.code.length + 2) →
      StmtCode (S.after yes) (k + F.consts.length + Y.consts.length) no N → Reachable (N.code.length + 1) →
      StmtCode S k (.ifElse p e yes no)
        (F ++ .one (.jumpUnless r (Y.code.length + 2)) ++ Y ++ .one (.jump (N.code.length + 1)) ++ N)
  | while {S k p e body F r B} : NextCode S S.cells k e F r →
      StmtCode S (k + F.consts.length) body B → Reachable (B.code.length + 2) →
      Reachable (-(F.code.length + 1 + B.code.length)) →
      StmtCode S k (.while p e body)
        (F ++ .one (.jumpUnless r (B.code.length + 2)) ++ B ++
          .one (.jump (-(F.code.length + 1 + B.code.length)))).looped
  | ret {S k p e} : StmtCode S k (.ret p e) {}
  | func {S k p n q ps body} : StmtCode S k (.func p n q ps body) {}

inductive StmtsCode : Scope → (base : Nat) → List Stmt → Fragment → Prop
  | nil {S k} : StmtsCode S k [] {}
  | cons {S k s rest F G} : StmtCode S k s F → StmtsCode (S.after s) (k + F.consts.length) rest G →
      StmtsCode S k (s :: rest) (F ++ G)

end

section
variable {S : Scope} {k : Nat} {p : Place} {e : Expr} {s yes no : Stmt} {body rest : List Stmt} {X : Fragment}

theorem StmtCode.block_inv (h : StmtCode S k (.block p body) X) : StmtsCode S k body X := by
  cases h
  assumption

theorem StmtCode.ifThen_inv (h : StmtCode S k (.ifThen p e yes) X) : ∃ F r Y, NextCode S S.cells k e F r ∧
    StmtCode S (k + F.consts.length) yes Y ∧ Reachable (Y.code.length + 1) ∧
    X = F ++ .one (.jumpUnless r (Y.code.length + 1)) ++ Y := by
  cases h with
  | ifThen hF hY hd => exact ⟨_, _, _, hF, hY, hd, rfl⟩

theorem StmtCode.ifElse_inv (h : StmtCode S k (.ifElse p e yes no) X) : ∃ F r Y N, NextCode S S.cells k e F r ∧
    StmtCode S (k + F.consts.length) yes Y ∧ Reachable (Y.code.length + 2) ∧
    StmtCode (S.after yes) (k + F.consts.length + Y.consts.length) no N ∧ Reachable (N.code.length + 1) ∧
    X = F ++ .one (.jumpUnless r (Y.code.length + 2)) ++ Y ++ .one (.jump (N.code.length + 1)) ++ N := by
  cases h with
  | ifElse hF hY hd hN hd' => exact ⟨_, _, _, _, hF, hY, hd, hN, hd', rfl⟩

theorem StmtCode.while_inv (h : StmtCode S k (.while p e s) X) : ∃ F r B, NextCode S S.cells k e F r ∧
    StmtCode S (k + F.consts.length) s B ∧ Reachable (B.code.length + 2) ∧
    Reachable (-(F.code.length + 1 + B.code.length)) ∧
    X = (F ++ .one (.jumpUnless r (B.code.length + 2)) ++ B ++
      .one (.jump (-(F.code.length + 1 + B.code.length)))).looped := by
  cases h with
  | «while» hF hB hd hd' => exact ⟨_, _, _, hF, hB, hd, hd', rfl⟩

theorem StmtsCode.cons_inv (h : StmtsCode S k (s :: rest) X) : ∃ F G, StmtCode S k s F ∧
    StmtsCode (S.after s) (k + F.consts.length) rest G ∧ X = F ++ G := by
  cases h with
  | cons hF hG => exact ⟨_, _, hF, hG, rfl⟩

end

end RegCode
