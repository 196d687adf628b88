import RegCode.Parse.Expression

/-!
# Reading statements

Declarations stand in programs, blocks and function bodies; the bodies of `if` and `while` are
statements only. A declaration that is given up does not end the parse: it becomes a `bad` statement,
and reading goes on at the next boundary.
-/

namespace RegCode

def maxParams : Nat := 255

/-- A node named by its first token, up to its last one. -/
def Place.between (first last : Token) : Place := ⟨first.pos, ⟨first.pos, last.pos⟩⟩

namespace TokenStream

/-- Reads a semicolon, which ends a statement begun by the token `first`. -/
def finish (first : Token) (f : SyntaxFault) (node : Place → Stmt) (s : TokenStream) :
    Reading Stmt s :=
  (s.expect .semicolon f).map fun _ last => node (.between first last)

/-- Reads parameters up to the closing bracket, `start` being in front of the opening one; `acc` holds
those before, last one first. Parameters in excess are noted as faults and kept. -/
def parameters (start : TokenStream) (acc : List Param) (s : TokenStream) (lt : s.left < start.left) :
    Reading (List Param) start :=
  let s' := if (acc.drop (maxParams - 1)).isEmpty then s else s.report s.current .tooManyParameters
  have hs' : s'.left = s.left := by
    simp only [s']
    split
    · rfl
    · exact left_report ..
  match s'.expect .ident .noParameterName with
  | .fail f next _ le => .stuck f next (by omega)
  | .done t next lt =>
    match next.skip? .comma with
    | some ⟨next', lt'⟩ => parameters start (⟨t.literal, t.pos⟩ :: acc) next' (by omega)
    | none =>
      ((next.expect .rparen .unclosedParameters).map fun _ _ =>
        (⟨t.literal, t.pos⟩ :: acc).reverse).after (by omega)
termination_by s.left
decreasing_by omega

def parameterList (s : TokenStream) : Reading (List Param) s :=
  (s.expect .lparen .noParameterList).follow fun _ next lt =>
    match next.skip? .rparen with
    | some ⟨next', lt'⟩ => Reading.after (.done [] next' lt') lt
    | none => parameters s [] next lt

def varDecl (first : Token) (s : TokenStream) : Reading Stmt s :=
  (s.expect .ident .noVariableName).bind fun name s _ =>
    let node (init : Option Expr) (p : Place) : Stmt := .var p name.literal name.pos init
    match s.skip? .assign with
    | some ⟨next, lt⟩ =>
      ((expr Kind.weakest next).bind fun e s _ =>
        finish first .unendedDeclaration (node (some e)) s).after lt
    | none => finish first .unendedDeclaration (node none) s

def printStmt (first : Token) (s : TokenStream) : Reading Stmt s :=
  (expr Kind.weakest s).bind fun e s _ => finish first .unendedPrint (.print · e) s

def returnStmt (first : Token) (s : TokenStream) : Reading Stmt s :=
  if s.current.kind = .semicolon then finish first .unendedReturn (.ret · none) s
  else (expr Kind.weakest s).bind fun e s _ => finish first .unendedReturn (.ret · (some e)) s

def exprStmt (s : TokenStream) : Reading Stmt s :=
  (expr Kind.weakest s).bind fun e next _ => finish s.current .unendedExpression (.expr · e) next

def condition (opening closing : SyntaxFault) (s : TokenStream) : Reading Expr s :=
  (s.expect .lparen opening).bind fun _ s _ =>
    (expr Kind.weakest s).bind fun cond s _ => (s.expect .rparen closing).map fun _ _ => cond

mutual

/-- Reads a statement that declares nothing. -/
def statement (s : TokenStream) : Reading Stmt s :=
  match h : s.rest with
  | [] => exprStmt s
  | t :: _ =>
    have lt := left_advance_lt h
    match t.kind with
    | .kwIf => (ifStmt t s.advance).after lt
    | .kwWhile => (whileStmt t s.advance).after lt
    | .kwReturn => (returnStmt t s.advance).after lt
    | .kwPrint => (printStmt t s.advance).after lt
    | .lbrace =>
      (block s [] s.advance lt).map fun body last => .block (.between t last) body
    | _ => exprStmt s
termination_by 4 * s.left
decreasing_by all_goals omega

/-- Reads a branch behind its first token. An `else` belongs to the nearest `if`. -/
def ifStmt (first : Token) (s : TokenStream) : Reading Stmt s :=
  (condition .noIfCondition .unclosedIfCondition s).bind fun cond s _ =>
    (statement s).follow fun yes s lt =>
      match s.skip? .kwElse with
      | some ⟨next, lt'⟩ =>
        ((statement next).map fun no last =>
          .ifElse (.between first last) cond yes no).after (by omega)
      | none => .done (.ifThen (.between first s.prev) cond yes) s lt
termination_by 4 * s.left + 3
decreasing_by all_goals omega

def whileStmt (first : Token) (s : TokenStream) : Reading Stmt s :=
  (condition .noWhileCondition .unclosedWhileCondition s).bind fun cond s _ =>
    (statement s).map fun body last => .while (.between first last) cond body
termination_by 4 * s.left + 3
decreasing_by all_goals omega

def funcDecl (first : Token) (s : TokenStream) : Reading Stmt s :=
  (s.expect .ident .noFunctionName).bind fun name s _ =>
    (parameterList s).bind fun params s _ =>
      (s.expect .lbrace .noFunctionBody).follow fun _ next lt =>
        (block s [] next lt).map fun body last =>
          .func (.between first last) name.literal name.pos params body
termination_by 4 * s.left + 3
decreasing_by all_goals omega

/-- Reads declarations up to the closing brace, `start` being in front of the opening one; `acc` holds
those before, last one first. -/
def block (start : TokenStream) (acc : List Stmt) (s : TokenStream) (lt : s.left < start.left) :
    Reading (List Stmt) start :=
  match h : s.rest with
  | [] => Reading.after (s.reject .unclosedBlock) lt
  | t :: rest =>
    if t.kind = .rbrace then .done acc.reverse s.advance (Nat.lt_trans (left_advance_lt h) lt)
    else
      match declaration s t rest h with
      | ⟨(stmt, next), lt'⟩ => block start (stmt :: acc) next (Nat.lt_trans lt' lt)
termination_by 4 * s.left + 2
decreasing_by
  · omega
  · have : next.left < s.left := lt'
    omega

/-- Reads a declaration or a statement, of which `first` is the first token. One that is given up is kept
as a bad statement, which reaches to the token before the boundary. -/
def declaration (s : TokenStream) (first : Token) (rest : List Token) (h : s.rest = first :: rest) :
    { p : Stmt × TokenStream // p.2.left < s.left } :=
  have lt := left_advance_lt h
  let reading : Reading Stmt s :=
    match first.kind with
    | .kwFn => (funcDecl first s.advance).after lt
    | .kwVar => (varDecl first s.advance).after lt
    | _ => statement s
  match reading with
  | .done stmt next lt => ⟨(stmt, next), lt⟩
  | .fail f next moved le =>
    let next' := next.recover moved
    ⟨(.bad (.between first next'.prev) f.message, next'), left_recover_lt (by omega) le⟩
termination_by 4 * s.left + 1
decreasing_by all_goals omega

end

/-- Reads declarations up to the end; `acc` holds those before, last one first. -/
def declarations (acc : List Stmt) (s : TokenStream) : List Stmt × TokenStream :=
  match h : s.rest with
  | [] => (acc.reverse, s)
  | t :: rest =>
    match declaration s t rest h with
    | ⟨(stmt, next), _⟩ => declarations (stmt :: acc) next
termination_by s.left
decreasing_by assumption

end TokenStream

end RegCode
