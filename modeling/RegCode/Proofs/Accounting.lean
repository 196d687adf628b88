import RegCode.Build
import RegCode.Proofs.Course

/-!
# Bad statements are accounted for

A bad statement stands for the error that its declaration was given up with, and that error was reported behind
those of all bad statements in front of it. Errors of declarations that are themselves dropped stay, as do errors
that end no declaration. So the messages of the bad statements are, in order, among those of the errors, and a
program without errors has no bad statement.
-/

namespace RegCode

namespace Stmt

mutual

/-- The messages of the bad statements in a statement, in order. -/
def complaints : Stmt → List Bytes
  | .bad _ message => [message]
  | .block _ body => complaintsAll body
  | .ifThen _ _ yes => yes.complaints
  | .ifElse _ _ yes no => yes.complaints ++ no.complaints
  | .while _ _ body => body.complaints
  | .func _ _ _ _ body => complaintsAll body
  | _ => []

def complaintsAll : List Stmt → List Bytes
  | [] => []
  | s :: rest => s.complaints ++ complaintsAll rest

end

def badMessages (l : List Stmt) : List Bytes := (l.reverse.filterMap bad?).map (·.2)

theorem badMessages_cons (s : Stmt) (l : List Stmt) :
    badMessages (s :: l) = badMessages l ++ (s.bad?.map (·.2)).toList := by
  unfold badMessages
  rw [List.reverse_cons, List.filterMap_append, List.map_append]
  cases h : s.bad? <;> simp [h]

mutual

theorem badMessages_visitOnto : ∀ (acc : List Stmt) (s : Stmt),
    badMessages (visitOnto acc s) = badMessages acc ++ s.complaints
  | acc, .hole => by simp [visitOnto, complaints]
  | acc, .block _ body => by simp [visitOnto, complaints, badMessages_visitAllOnto _ body, badMessages_cons, bad?]
  | acc, .func _ _ _ _ body => by simp [visitOnto, complaints, badMessages_visitAllOnto _ body, badMessages_cons,
      bad?]
  | acc, .ifThen _ _ yes => by simp [visitOnto, complaints, badMessages_visitOnto _ yes, badMessages_cons, bad?]
  | acc, .ifElse _ _ yes no => by
    simp [visitOnto, complaints, badMessages_visitOnto _ no, badMessages_visitOnto _ yes, badMessages_cons, bad?]
  | acc, .while _ _ body => by simp [visitOnto, complaints, badMessages_visitOnto _ body, badMessages_cons, bad?]
  | acc, .bad .. => by simp [visitOnto, complaints, badMessages_cons, bad?]
  | acc, .var .. | acc, .print .. | acc, .expr .. | acc, .ret .. => by
    simp [visitOnto, complaints, badMessages_cons, bad?]

theorem badMessages_visitAllOnto : ∀ (acc : List Stmt) (l : List Stmt),
    badMessages (visitAllOnto acc l) = badMessages acc ++ complaintsAll l
  | acc, [] => by simp [visitAllOnto, complaintsAll]
  | acc, s :: rest => by
    rw [visitAllOnto, badMessages_visitAllOnto _ rest, badMessages_visitOnto _ s, complaintsAll, List.append_assoc]

end

theorem visited_messages (body : List Stmt) :
    ((visited body).filterMap bad?).map (·.2) = complaintsAll body :=
  badMessages_visitAllOnto [] body

mutual

theorem ReadFrom.complaints : ∀ {s : Stmt} {us : List Token} {es : List SyntaxError}, ReadFrom s us es →
    s.complaints.Sublist (es.map (·.message))
  | _, _, _, .var .. | _, _, _, .varInit .. | _, _, _, .print .. | _, _, _, .expr .. | _, _, _, .ret ..
  | _, _, _, .retValue .. => List.nil_sublist _
  | _, _, _, .block _ _ h => h.complaints
  | _, _, _, .func _ _ _ _ _ _ _ h => by
    rw [List.map_append]
    exact h.complaints.trans (List.sublist_append_right ..)
  | _, _, _, .ifThen _ _ _ _ _ h | _, _, _, .while _ _ _ _ _ h => by
    rw [List.map_append]
    exact h.complaints.trans (List.sublist_append_right ..)
  | _, _, _, .ifElse _ _ _ _ _ _ hyes hno => by
    rw [List.map_append, List.map_append]
    exact (hyes.complaints.trans (List.sublist_append_right ..)).append hno.complaints
  | _, _, _, .bad _ _ e _ => by
    rw [List.map_append]
    exact List.sublist_append_right ..

theorem ReadAllFrom.complaints : ∀ {l : List Stmt} {us : List Token} {es : List SyntaxError}, ReadAllFrom l us es →
    (complaintsAll l).Sublist (es.map (·.message))
  | _, _, _, .nil => List.nil_sublist _
  | _, _, _, .cons h hrest => by
    rw [List.map_append]
    exact h.complaints.append hrest.complaints

end

end Stmt

theorem parse_complaints (tokens : List Token) : ∃ es, List.Sublist es (parse tokens).errors ∧
    es.map (·.message) = ((Stmt.visited (parse tokens).program.body).filterMap Stmt.bad?).map (·.2) := by
  obtain ⟨es, hes, heq⟩ := List.sublist_map_iff.mp (parse_readFrom tokens).complaints
  exact ⟨es, hes, by rw [Stmt.visited_messages, heq]⟩

theorem parse_ok {tokens : List Token} (h : (parse tokens).errors = []) : (parse tokens).program.ok = true := by
  obtain ⟨es, hes, heq⟩ := parse_complaints tokens
  rw [h] at hes
  rw [List.sublist_nil.mp hes, List.map_nil, eq_comm, List.map_eq_nil_iff] at heq
  unfold Program.ok Program.firstBad?
  rw [Option.isNone_iff_eq_none, List.findSome?_eq_none_iff]
  exact List.filterMap_eq_nil_iff.mp heq

/-- Each bad statement of a program stands, in order, for an error of its own with the same message. So a program
without errors has none, and a source is compiled only if its program has none. -/
theorem bad_statements_accounted :
    (∀ tokens, ∃ es, List.Sublist es (parse tokens).errors ∧
      es.map (·.message) = ((Stmt.visited (parse tokens).program.body).filterMap Stmt.bad?).map (·.2)) ∧
    (∀ tokens, (parse tokens).errors = [] → (parse tokens).program.ok = true) ∧
    ∀ source, let r := parseSource source
      r.errors ≠ [] ∧ compileSource source = (.error (.parse r.errors), []) ∨
        r.program.ok = true ∧
          compileSource source = ((compile r.program).result.mapError .compile, (compile r.program).notices) := by
  refine ⟨parse_complaints, fun tokens => parse_ok, fun source => ?_⟩
  intro r
  unfold compileSource readProgram
  by_cases h : r.errors = []
  · exact .inr ⟨parse_ok h, by rw [if_pos (List.isEmpty_iff.mpr h)]⟩
  · exact .inl ⟨h, by rw [if_neg (mt List.isEmpty_iff.mp h)]⟩

/-- An inner declaration is given up, then the statement around it, and then another one. -/
def givenUp : Bytes := txt "if (a) \x7b var ; \x7d else ; print ;"

theorem givenUp_accounted :
    (∃ es, List.Sublist es (parseSource givenUp).errors ∧ es.length = 2 ∧ (parseSource givenUp).errors.length = 3 ∧
      es.map (·.message) = ((Stmt.visited (parseSource givenUp).program.body).filterMap Stmt.bad?).map (·.2)) ∧
    (compileSource givenUp).1.toOption = none ∧
    (parseSource (txt "print 1;")).errors = [] ∧ (parseSource (txt "print 1;")).program.ok = true := by
  obtain ⟨hall, hok, hsource⟩ := bad_statements_accounted
  obtain ⟨es, hes, hmessages⟩ := hall (tokenize givenUp)
  have hcount : ((Stmt.visited (parseSource givenUp).program.body).filterMap Stmt.bad?).length = 2 := by
    decide +kernel
  have hclean : (parseSource (txt "print 1;")).errors = [] := by decide +kernel
  refine ⟨⟨es, hes, ?_, by decide +kernel, hmessages⟩, ?_, hclean, hok _ hclean⟩
  · rw [← List.length_map, hmessages, List.length_map]
    exact hcount
  · obtain ⟨-, h⟩ | ⟨h, -⟩ := hsource givenUp
    · rewrite [h]
      rfl
    · exact absurd h (by decide +kernel)

end RegCode
