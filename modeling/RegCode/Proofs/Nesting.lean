import RegCode.Proofs.Course

/-!
# Spans are well nested

The span of a node runs from the first to the last of the tokens it is read from, and the nodes inside it are read
from pieces of these tokens, one behind the other. Only an assignment without a target takes tokens that do not
count: its left side keeps the span it had. Where offsets go up, everything about nodes inside and beside each other
follows.
-/

namespace RegCode

inductive Node where
  | expr (e : Expr)
  | stmt (s : Stmt)

namespace Node

def place? : Node → Option Place
  | expr e => e.place?
  | stmt s => s.place?

def span (n : Node) : Span := (n.place?.getD {}).span

def parts : Node → List Node
  | expr (.literal ..) | expr (.name ..) | expr .hole => []
  | expr (.binary _ _ left right) => [expr left, expr right]
  | expr (.unary _ _ e) | expr (.group _ e) | expr (.assign _ _ e) => [expr e]
  | stmt (.var _ _ _ init) => init.toList.map expr
  | stmt (.print _ e) | stmt (.expr _ e) => [expr e]
  | stmt (.block _ body) | stmt (.func _ _ _ _ body) => body.map stmt
  | stmt (.ifThen _ cond yes) => [expr cond, stmt yes]
  | stmt (.ifElse _ cond yes no) => [expr cond, stmt yes, stmt no]
  | stmt (.while _ cond body) => [expr cond, stmt body]
  | stmt (.ret _ value) => value.toList.map expr
  | stmt (.bad ..) | stmt .hole => []

def ReadFrom : Node → List Token → Prop
  | expr e, us => ∃ es, e.ReadFrom us es
  | stmt s, us => ∃ es, s.ReadFrom us es

inductive Pieces : List Node → List Token → Prop where
  | nil (us : List Token) : Pieces [] us
  | cons {n : Node} {rest : List Node} {vs ws : List Token} (us : List Token) : n.ReadFrom vs → Pieces rest ws →
      Pieces (n :: rest) (us ++ vs ++ ws)

/-- The node spans exactly the tokens, is named by one of them, and has its parts read from pieces of them. -/
structure Framed (n : Node) (us : List Token) : Prop where
  place : ∃ first last pos, us.head? = some first ∧ us.getLast? = some last ∧ pos ∈ us ∧
    n.place? = some ⟨pos.pos, ⟨first.pos, last.pos⟩⟩
  pieces : Pieces n.parts us

section
variable {n m : Node} {ns : List Node} {us vs : List Token}

theorem Pieces.one (us : List Token) (h : n.ReadFrom vs) (ws : List Token) : Pieces [n] (us ++ vs ++ ws) :=
  .cons us h (.nil ws)

theorem Pieces.append (us : List Token) (h : Pieces ns vs) (ws : List Token) : Pieces ns (us ++ vs ++ ws) := by
  induction h generalizing us with
  | nil vs => exact .nil _
  | cons xs hn _ ih =>
    have := Pieces.cons (us ++ xs) hn (ih [])
    simpa using this

theorem Pieces.mem (h : Pieces ns us) (hm : m ∈ ns) : ∃ vs, vs <:+: us ∧ m.ReadFrom vs := by
  induction h with
  | nil => cases hm
  | cons us hn hrest ih =>
    cases hm with
    | head => exact ⟨_, ⟨us, _, rfl⟩, hn⟩
    | tail _ hm =>
      obtain ⟨xs, hxs, hm⟩ := ih hm
      exact ⟨xs, hxs.trans (List.suffix_append ..).isInfix, hm⟩

end

end Node

open Node

/-! ## Nodes and their tokens -/

section
variable {e left right : Expr} {x : Stmt} {us vs : List Token} {es fs : List SyntaxError}

theorem Expr.ReadFrom.node (h : e.ReadFrom us es) : (Node.expr e).ReadFrom us := ⟨es, h⟩

theorem Stmt.ReadFrom.node (h : x.ReadFrom us es) : (Node.stmt x).ReadFrom us := ⟨es, h⟩

/-- The expression is read from the tokens `core` at the front and spans them. What is behind was taken for
assignments without a target. -/
structure Expr.Cored (e : Expr) (us core : List Token) : Prop where
  front : core <+: us
  reads : ∃ es, e.ReadFrom core es
  framed : Framed (.expr e) core

theorem Expr.Cored.head {core : List Token} (h : e.Cored us core) : us.head? = core.head? := by
  obtain ⟨first, _, _, hfirst, -⟩ := h.framed.place
  obtain ⟨more, rfl⟩ := h.front
  rw [List.head?_append, hfirst]
  rfl

theorem Expr.span_of_place {p : Place} (h : (Node.expr e).place? = some p) : e.span = p.span := by
  rw [Expr.span, show e.place? = some p from h]
  rfl

theorem Expr.Cored.join {core core' : List Token} {op : Token} (hl : left.Cored us core) (hr : right.Cored vs core')
    (he : e.place? = some ⟨op.pos, ⟨left.span.start, right.span.stop⟩⟩)
    (hreads : ∀ fs, right.ReadFrom core' fs → ∃ es, e.ReadFrom (us ++ op :: core') es)
    (hparts : ∀ fs, right.ReadFrom core' fs → Pieces (Node.expr e).parts (us ++ op :: core')) :
    e.Cored (us ++ op :: vs) (us ++ op :: core') := by
  obtain ⟨first, _, _, hfirst, _, _, hplace⟩ := hl.framed.place
  obtain ⟨_, last, _, _, hlast, _, hplace'⟩ := hr.framed.place
  obtain ⟨fs, hr'⟩ := hr.reads
  refine ⟨?_, hreads fs hr', ⟨first, last, op, ?_, ?_, by simp, ?_⟩, hparts fs hr'⟩
  · obtain ⟨more, rfl⟩ := hr.front
    exact ⟨more, by simp⟩
  · rw [List.head?_append, hl.head, hfirst]
    rfl
  · rw [List.getLast?_append, List.getLast?_cons, hlast]
    rfl
  · rwa [Expr.span_of_place hplace, Expr.span_of_place hplace'] at he

theorem Expr.cored_name (t : Token) : (Expr.name (.ofToken t) t.literal).Cored [t] [t] :=
  ⟨List.prefix_rfl, ⟨_, .name t⟩, ⟨t, t, t, rfl, rfl, by simp, rfl⟩, .nil _⟩

theorem Expr.ReadFrom.cored (h : e.ReadFrom us es) : ∃ core, e.Cored us core := by
  induction h with
  | literal t v => exact ⟨[t], List.prefix_rfl, ⟨_, .literal t v⟩, ⟨t, t, t, rfl, rfl, by simp, rfl⟩, .nil _⟩
  | name t => exact ⟨[t], cored_name t⟩
  | group opening closing h =>
    refine ⟨_, List.prefix_rfl, ⟨_, .group opening closing h⟩, ⟨opening, closing, opening, rfl, ?_, by simp, rfl⟩,
      ?_⟩
    · exact List.getLast?_concat
    · exact .one [opening] h.node [closing]
  | sign op _ ih =>
    obtain ⟨core, ⟨more, rfl⟩, ⟨es, hreads⟩, ⟨_, last, _, _, hlast, _, hplace⟩, _⟩ := ih
    refine ⟨op :: core, ⟨more, rfl⟩, ⟨es, .sign op hreads⟩, ⟨op, last, op, rfl, ?_, by simp, ?_⟩, ?_⟩
    · rw [List.getLast?_cons, hlast]
      rfl
    · simp [Node.place?, Expr.signNode, Expr.place?, Expr.span_of_place hplace]
    · simpa [Node.parts, Expr.signNode] using Pieces.one [op] hreads.node []
  | operator op hl _ ihl ihr =>
    obtain ⟨core, hcore⟩ := ihl
    obtain ⟨core', hcore'⟩ := ihr
    refine ⟨_, hcore.join hcore' rfl (fun fs h => ⟨_, .operator op hl h⟩) fun fs h => ?_⟩
    simpa [Node.parts, Expr.operatorNode] using Pieces.cons [] hl.node (.one [op] h.node [])
  | assign name op _ ih =>
    obtain ⟨core, hcore⟩ := ih
    refine ⟨_, (cored_name name).join hcore rfl (fun fs h => ⟨_, .assign name op h⟩) fun fs h => ?_⟩
    simpa [Node.parts] using Pieces.one [name, op] h.node []
  | untargeted op _ _ _ ihl =>
    obtain ⟨core, hfront, hreads, hframed⟩ := ihl
    exact ⟨core, hfront.trans (List.prefix_append ..), hreads, hframed⟩

theorem Stmt.ReadAllFrom.pieces {body : List Stmt} (h : ReadAllFrom body us es) : Pieces (body.map .stmt) us := by
  induction body generalizing us es with
  | nil =>
    cases h
    exact .nil []
  | cons x rest ih =>
    cases h with
    | cons hx hrest => exact .cons [] hx.node (ih hrest)

theorem Node.Framed.between (first : Token) (us : List Token) (last : Token)
    (hx : x.place? = some (.between first last)) (h : Pieces (Node.stmt x).parts (first :: us ++ [last])) :
    Framed (.stmt x) (first :: us ++ [last]) :=
  ⟨⟨first, last, first, rfl, List.getLast?_concat, by simp, hx⟩, h⟩

theorem Stmt.ReadFrom.framed (h : x.ReadFrom us es) : Framed (.stmt x) us := by
  cases h with
  | var first name last => exact .between first [name] last rfl (.nil _)
  | ret first last => exact .between first [] last rfl (.nil _)
  | varInit first name sign last he => exact .between first _ last rfl (.one [first, name, sign] he.node [last])
  | print first last he => exact .between first _ last rfl (.one [first] he.node [last])
  | retValue first last he => exact .between first _ last rfl (.one [first] he.node [last])
  | expr last he => exact .between _ _ last rfl (.one [] he.node [last])
  | block first last hbody => exact .between first _ last rfl (.append [first] hbody.pieces [last])
  | @func _ _ us _ _ first name bracket opening last _ _ hbody =>
    refine .between first _ last rfl ?_
    have := hbody.pieces.append (first :: name :: bracket :: us ++ [opening]) [last]
    simpa [Node.parts] using this
  | ifThen first opening closing last hcond hyes =>
    refine .between first _ last rfl ?_
    have := Pieces.cons [first, opening] hcond.node (.one [closing] hyes.node [])
    simpa [Node.parts] using this
  | «while» first opening closing last hcond hbody =>
    refine .between first _ last rfl ?_
    have := Pieces.cons [first, opening] hcond.node (.one [closing] hbody.node [])
    simpa [Node.parts] using this
  | ifElse first opening closing other last hcond hyes hno =>
    refine .between first _ last rfl ?_
    have := Pieces.cons [first, opening] hcond.node (.cons [closing] hyes.node (.one [other] hno.node []))
    simpa [Node.parts] using this
  | bad first last e hlast => exact ⟨⟨first, last, first, rfl, hlast, by simp, rfl⟩, .nil _⟩

end

theorem Node.ReadFrom.framed {n : Node} {us : List Token} (h : n.ReadFrom us) :
    ∃ core, core <+: us ∧ n.ReadFrom core ∧ n.Framed core := by
  cases n with
  | expr e =>
    obtain ⟨es, h⟩ := h
    obtain ⟨core, hfront, hreads, hframed⟩ := h.cored
    exact ⟨core, hfront, hreads, hframed⟩
  | stmt x =>
    obtain ⟨es, h⟩ := h
    exact ⟨us, List.prefix_rfl, h.node, h.framed⟩

/-! ## Offsets -/

def Increasing (us : List Token) : Prop := us.Pairwise fun t u => t.pos.offset < u.pos.offset

def Span.Within (a b : Span) : Prop := b.start.offset ≤ a.start.offset ∧ a.stop.offset ≤ b.stop.offset

section
variable {n m : Node} {ns : List Node} {us vs : List Token} {t first last : Token}

theorem Increasing.bounds (h : Increasing us) (hfirst : us.head? = some first) (hlast : us.getLast? = some last)
    (ht : t ∈ us) : first.pos.offset ≤ t.pos.offset ∧ t.pos.offset ≤ last.pos.offset := by
  constructor
  · obtain ⟨rest, rfl⟩ := List.head?_eq_some_iff.mp hfirst
    rcases List.mem_cons.mp ht with rfl | ht
    · exact Int.le_refl _
    · exact Int.le_of_lt (List.rel_of_pairwise_cons h ht)
  · obtain ⟨front, rfl⟩ := List.getLast?_eq_some_iff.mp hlast
    rcases List.mem_append.mp ht with ht | ht
    · exact Int.le_of_lt ((List.pairwise_append.mp h).2.2 t ht last (List.mem_singleton_self _))
    · obtain rfl := List.mem_singleton.mp ht
      exact Int.le_refl _

theorem Node.ReadFrom.ends (h : n.ReadFrom us) :
    ∃ first ∈ us, ∃ last ∈ us, n.span = ⟨first.pos, last.pos⟩ := by
  obtain ⟨core, hfront, -, ⟨first, last, pos, hfirst, hlast, -, hplace⟩, -⟩ := h.framed
  refine ⟨first, hfront.subset (List.mem_of_head? hfirst), last, hfront.subset (List.mem_of_getLast? hlast), ?_⟩
  rw [Node.span, hplace]
  rfl

theorem Node.Pieces.apart (h : Pieces ns us) (hus : Increasing us) :
    ns.Pairwise fun a b => a.span.stop.offset < b.span.start.offset := by
  induction h with
  | nil => exact .nil
  | @cons n rest vs ws us hn hrest ih =>
    obtain ⟨-, hws, hlt⟩ := List.pairwise_append.mp hus
    refine .cons (fun m hm => ?_) (ih hws)
    obtain ⟨xs, hxs, hm⟩ := hrest.mem hm
    obtain ⟨_, -, last, hlast, hspan⟩ := hn.ends
    obtain ⟨first, hfirst, _, -, hspan'⟩ := hm.ends
    rw [hspan, hspan']
    exact hlt last (List.mem_append_right us hlast) first (hxs.subset hfirst)

end

inductive Program.HasNode (p : Program) : Node → Prop where
  | stmt {s : Stmt} : s ∈ p.body → p.HasNode (.stmt s)
  | part {n m : Node} : p.HasNode n → m ∈ n.parts → p.HasNode m

theorem Program.HasNode.readFrom {tokens : List Token} {n : Node} (h : (parse tokens).program.HasNode n) :
    ∃ us, us <:+: tokens ∧ n.ReadFrom us := by
  induction h with
  | stmt hs =>
    obtain ⟨us, hus, h⟩ := (parse_readFrom tokens).pieces.mem (List.mem_map_of_mem hs)
    exact ⟨us, hus.trans (List.takeWhile_prefix _).isInfix, h⟩
  | part _ hm ih =>
    obtain ⟨us, hus, h⟩ := ih
    obtain ⟨core, hfront, -, hframed⟩ := h.framed
    obtain ⟨vs, hvs, hm⟩ := hframed.pieces.mem hm
    exact ⟨vs, hvs.trans (hfront.isInfix.trans hus), hm⟩

structure Node.Nested (n : Node) (p : Place) (us : List Token) : Prop where
  ordered : p.span.start.offset ≤ p.span.stop.offset
  ends : us.head?.map (·.pos) = some p.span.start ∧ us.getLast?.map (·.pos) = some p.span.stop
  named : p.span.start.offset ≤ p.pos.offset ∧ p.pos.offset ≤ p.span.stop.offset
  within : ∀ m ∈ n.parts, m.span.Within p.span
  apart : n.parts.Pairwise fun a b => a.span.stop.offset < b.span.start.offset

theorem Node.Framed.nested {n : Node} {us : List Token} (h : n.Framed us) (hus : Increasing us) :
    ∃ p, n.place? = some p ∧ n.Nested p us := by
  obtain ⟨⟨first, last, pos, hfirst, hlast, hpos, hplace⟩, hpieces⟩ := h
  have hbounds {t : Token} (ht : t ∈ us) := hus.bounds hfirst hlast ht
  refine ⟨_, hplace, (hbounds (List.mem_of_head? hfirst)).2, ?_, hbounds hpos, fun m hm => ?_, hpieces.apart hus⟩
  · rw [hfirst, hlast]
    exact ⟨rfl, rfl⟩
  · obtain ⟨vs, hvs, hm⟩ := hpieces.mem hm
    obtain ⟨a, ha, b, hb, hspan⟩ := hm.ends
    rw [hspan]
    exact ⟨(hbounds (hvs.subset ha)).1, (hbounds (hvs.subset hb)).2⟩

/-- Where the offsets of the tokens go up, the spans of the program that is read from them are well nested: those of
all its nodes, whether there are errors or not. -/
theorem spans_well_nested (tokens : List Token) (h : Increasing tokens) :
    (∀ n, (parse tokens).program.HasNode n →
      ∃ p us, n.place? = some p ∧ us <:+: tokens ∧ n.ReadFrom us ∧ n.Nested p us) ∧
    ((parse tokens).program.body.Pairwise fun a b => a.span.stop.offset < b.span.start.offset) ∧
    ∀ first last, (parse tokens).program.body.head? = some first →
    (parse tokens).program.body.getLast? = some last →
      (parse tokens).program.span = ⟨first.span.start, last.span.stop⟩ := by
  refine ⟨fun n hn => ?_, ?_, fun first last hfirst hlast => ?_⟩
  · obtain ⟨us, hus, hreads⟩ := hn.readFrom
    obtain ⟨core, hfront, hcore, hframed⟩ := hreads.framed
    have hinfix := hfront.isInfix.trans hus
    obtain ⟨p, hp, hnested⟩ := hframed.nested (h.sublist hinfix.sublist)
    exact ⟨p, core, hp, hinfix, hcore, hnested⟩
  · have hpieces := (parse_readFrom tokens).pieces
    have := hpieces.apart (h.sublist (List.takeWhile_sublist _))
    exact List.pairwise_map.mp this
  · have hspan : (parse tokens).program.span = Program.spanOf (parse tokens).program.body := rfl
    rw [hspan, Program.spanOf, hfirst, hlast]

/-- The tokens of `print 1 + 2 = a; { b + ; return; }`: an assignment without a target, and in the block a
declaration that is given up. -/
def mistaken : List Token :=
  let mark (k : Kind) (i : Int) : Token := ⟨k, [], ⟨i, 1, i + 1⟩⟩
  let word (k : Kind) (b : UInt8) (i : Int) : Token := ⟨k, [b], ⟨i, 1, i + 1⟩⟩
  [mark .kwPrint 0, word .int 49 6, mark .plus 8, word .int 50 10, mark .assign 12, word .ident 97 14,
    mark .semicolon 15, mark .lbrace 17, word .ident 98 19, mark .plus 21, mark .semicolon 23, mark .kwReturn 25,
    mark .semicolon 31, mark .rbrace 33, mark .eof 34]

theorem mistaken_nested : Increasing mistaken ∧ (parse mistaken).errors.length = 2 ∧
    (∃ s, (parse mistaken).program.HasNode (.stmt s) ∧ s.span = ⟨⟨17, 1, 18⟩, ⟨33, 1, 34⟩⟩ ∧
      ∃ p us, s.place? = some p ∧ us <:+: mistaken ∧ (Node.stmt s).ReadFrom us ∧ (Node.stmt s).Nested p us) ∧
    (parse mistaken).program.span = ⟨⟨0, 1, 1⟩, ⟨33, 1, 34⟩⟩ := by
  have h : Increasing mistaken := by
    unfold Increasing
    decide
  have hspans : (parse mistaken).program.body.map Stmt.span =
      [⟨⟨0, 1, 1⟩, ⟨15, 1, 16⟩⟩, ⟨⟨17, 1, 18⟩, ⟨33, 1, 34⟩⟩] := by decide +kernel
  obtain ⟨hnodes, -, hspan⟩ := spans_well_nested mistaken h
  obtain ⟨first, rest, hbody, hfirst, hrest⟩ := List.map_eq_cons_iff.mp hspans
  obtain ⟨last, rfl, hlast⟩ := List.map_eq_singleton_iff.mp hrest
  have hnode : (parse mistaken).program.HasNode (.stmt last) := .stmt (by simp [hbody])
  refine ⟨h, by decide +kernel, ⟨last, hnode, hlast, hnodes _ hnode⟩, ?_⟩
  rw [hspan first last (by rw [hbody]; rfl) (by rw [hbody]; rfl), hfirst, hlast]

end RegCode
