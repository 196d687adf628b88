import RegCode.Parse.Fault

/-!
# Token streams

A stream is what a parser holds: the tokens to come, the one before them, and the errors so far. Reading
a phrase gives its meaning, or gives the phrase up with a fault; in the first case fewer tokens are left
than at its start, in the second at most as many, and fewer if any was read. The result carries that along,
which is why parsing ends.
-/

namespace RegCode

structure TokenStream where
  /-- The token read last; at the start, the first one. -/
  prev : Token
  /-- The tokens to come, without the end. -/
  rest : List Token
  ending : Token
  /-- The errors so far, in the order they were found. -/
  errors : Array SyntaxError := #[]
  deriving Repr

namespace TokenStream

/-- The tokens up to the first end. Where none is marked, it is at the last token. -/
def ofTokens (tokens : List Token) : TokenStream :=
  let rest := tokens.takeWhile (·.kind != .eof)
  let ending := (tokens.find? (·.kind == .eof)).getD ⟨.eof, [], (tokens.getLast?.map (·.pos)).getD {}⟩
  ⟨rest.headD ending, rest, ending, #[]⟩

def left (s : TokenStream) : Nat := s.rest.length

def current (s : TokenStream) : Token := s.rest.headD s.ending

def advance (s : TokenStream) : TokenStream :=
  match s.rest with
  | [] => s
  | t :: rest => { s with prev := t, rest := rest }

def report (s : TokenStream) (t : Token) (f : SyntaxFault) : TokenStream :=
  { s with errors := s.errors.push (.atToken t f) }

theorem left_report (s : TokenStream) (t : Token) (f : SyntaxFault) : (s.report t f).left = s.left := rfl

theorem left_advance_le (s : TokenStream) : s.advance.left ≤ s.left := by
  unfold advance left
  split <;> simp_all

theorem left_advance_lt {s : TokenStream} {t : Token} {rest : List Token} (h : s.rest = t :: rest) :
    s.advance.left < s.left := by
  simp [advance, left, h]

/-- Goes on to the next boundary: behind a semicolon, or in front of a token that starts a statement. -/
def resume (s : TokenStream) : TokenStream :=
  match _ : s.rest with
  | [] => s
  | t :: _ =>
    if s.prev.kind = .semicolon ∨ t.kind.startsStatement then s else s.advance.resume
termination_by s.left
decreasing_by exact left_advance_lt (by assumption)

theorem left_resume_le (s : TokenStream) : s.resume.left ≤ s.left := by
  fun_induction resume s with
  | case1 => exact Nat.le_refl _
  | case2 => exact Nat.le_refl _
  | case3 s t rest _ _ ih => exact Nat.le_trans ih s.left_advance_le

/-- Finds a place to start again after a phrase that was given up: the next boundary, at least one token
behind the beginning. `moved` says whether a token was read already. -/
def recover (moved : Bool) (s : TokenStream) : TokenStream :=
  if moved then s.resume else s.advance.resume

theorem left_recover_lt {start : Nat} {moved : Bool} {s : TokenStream} (h : 0 < start)
    (hs : s.left + moved.toNat ≤ start) : (s.recover moved).left < start := by
  cases moved with
  | true =>
    have : (s.recover true).left ≤ s.left := s.left_resume_le
    simp only [Bool.toNat_true] at hs
    omega
  | false =>
    have : (s.recover false).left ≤ s.advance.left := s.advance.left_resume_le
    simp only [Bool.toNat_false] at hs
    cases hr : s.rest with
    | nil =>
      have := s.left_advance_le
      have : s.left = 0 := by simp [left, hr]
      omega
    | cons t rest =>
      have := left_advance_lt hr
      omega

end TokenStream

/-- What became of reading a phrase at `start`. A phrase that is given up has `moved` if a token of it was
read. -/
inductive Reading (α : Type) (start : TokenStream) where
  | done (value : α) (next : TokenStream) (lt : next.left < start.left)
  | fail (fault : SyntaxFault) (next : TokenStream) (moved : Bool)
      (le : next.left + moved.toNat ≤ start.left)

namespace Reading

variable {α β : Type} {start : TokenStream}

/-- A phrase is given up behind a token of it. -/
def stuck (f : SyntaxFault) (next : TokenStream) (lt : next.left < start.left) : Reading α start :=
  fail f next true lt

/-- A reading seen from a place before its start. -/
def after {s : TokenStream} (r : Reading α s) (lt : s.left < start.left) : Reading α start :=
  match r with
  | done a next lt' => done a next (Nat.lt_trans lt' lt)
  | fail f next _ le => stuck f next (Nat.lt_of_le_of_lt (Nat.le_trans (Nat.le_add_right ..) le) lt)

def follow (r : Reading α start) (f : α → (s : TokenStream) → s.left < start.left → Reading β start) :
    Reading β start :=
  match r with
  | done a s lt => f a s lt
  | fail e s moved le => fail e s moved le

def bind (r : Reading α start) (f : α → (s : TokenStream) → s.left < start.left → Reading β s) :
    Reading β start :=
  r.follow fun a s lt => (f a s lt).after lt

/-- Reads a phrase and makes something of it and the token at its end. -/
def map (r : Reading α start) (f : α → Token → β) : Reading β start :=
  match r with
  | done a s lt => done (f a s.prev) s lt
  | fail e s moved le => fail e s moved le

end Reading

namespace TokenStream

/-- The fault to report at a token where something else was looked for. -/
def faultAt (t : Token) (f : SyntaxFault) : SyntaxFault :=
  if t.kind = .illegal then .stated t.literal else f

def reject {α : Type} (s : TokenStream) (f : SyntaxFault) : Reading α s :=
  let f := faultAt s.current f
  .fail f (s.report s.current f) false (Nat.le_refl _)

def expect (s : TokenStream) (k : Kind) (f : SyntaxFault) : Reading Token s :=
  match h : s.rest with
  | [] => s.reject f
  | t :: _ => if t.kind = k then .done t s.advance (left_advance_lt h) else s.reject f

def skip? (s : TokenStream) (k : Kind) : Option { next : TokenStream // next.left < s.left } :=
  match h : s.rest with
  | [] => none
  | t :: _ => if t.kind = k then some ⟨s.advance, left_advance_lt h⟩ else none

end TokenStream

end RegCode
