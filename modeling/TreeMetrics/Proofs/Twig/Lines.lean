import TreeMetrics.Proofs.Twig.Shape

namespace TreeMetrics

theorem Position.after_line (p : Position) (cs : List Char) :
    (p.after cs).line = p.line + cs.count '\n' := by
  induction cs generalizing p with
  | nil => rfl
  | cons z cs ih =>
    rw [after_cons, ih, List.count_cons]
    by_cases hz : z = '\n'
    · subst hz
      have hl : (p.advance '\n').line = p.line + 1 := rfl
      simp only [hl, BEq.rfl, if_true]
      omega
    · have hl : (p.advance z).line = p.line := by simp [advance, hz]
      simp [hl, hz]

namespace ParseTree

variable {ρ : Type}

mutual

def relocate (f : Position → Position) : ParseTree ρ → ParseTree ρ
  | node r p q s ts => node r (f p) (f q) s (relocateAll f ts)

def relocateAll (f : Position → Position) : List (ParseTree ρ) → List (ParseTree ρ)
  | [] => []
  | t :: ts => relocate f t :: relocateAll f ts

end

theorem relocateAll_eq_map (f : Position → Position) (ts : List (ParseTree ρ)) :
    relocateAll f ts = ts.map (relocate f) := by
  induction ts with
  | nil => rfl
  | cons t ts ih => rw [relocateAll, ih, List.map_cons]

variable {f : Position → Position} {r : ρ} {p q : Position} {s : String} {ts : List (ParseTree ρ)}

theorem relocate_node :
    relocate f (node r p q s ts) = node r (f p) (f q) s (ts.map (relocate f)) := by
  rw [relocate, relocateAll_eq_map]

variable (t : ParseTree ρ)

@[simp] theorem rule_relocate : (t.relocate f).rule = t.rule := by
  cases t
  rfl

@[simp] theorem text_relocate : (t.relocate f).text = t.text := by
  cases t
  rfl

@[simp] theorem start_relocate : (t.relocate f).start = f t.start := by
  cases t
  rfl

@[simp] theorem stop_relocate : (t.relocate f).stop = f t.stop := by
  cases t
  rfl

@[simp] theorem children_relocate : (t.relocate f).children = t.children.map (relocate f) := by
  cases t
  rw [relocate_node, children, children]

end ParseTree

namespace Twig

open TreeMetrics.Twig.Rule

/-- The node `k` lines further down. -/
def Node.moved (k : Nat) (n : Node) : Node :=
  { n with beginLine := n.beginLine + k, endLine := n.endLine + k }

section Node

variable (k : Nat) (n : Node)

@[simp] theorem Node.kind_moved : (n.moved k).kind = n.kind := rfl

@[simp] theorem Node.image_moved : (n.moved k).image = n.image := rfl

@[simp] theorem Node.modifiers_moved : (n.moved k).modifiers = n.modifiers := rfl

end Node

mutual

def moved (k : Nat) : Tree Node → Tree Node
  | .node n ts => .node (n.moved k) (movedAll k ts)

def movedAll (k : Nat) : List (Tree Node) → List (Tree Node)
  | [] => []
  | t :: ts => moved k t :: movedAll k ts

end

theorem movedAll_eq_map (k : Nat) (ts : List (Tree Node)) : movedAll k ts = ts.map (moved k) := by
  induction ts with
  | nil => rfl
  | cons t ts ih => rw [movedAll, ih, List.map_cons]

@[simp] theorem moved_node (k : Nat) (n : Node) (ts : List (Tree Node)) :
    moved k (.node n ts) = .node (n.moved k) (ts.map (moved k)) := by
  rw [moved, movedAll_eq_map]

@[simp] theorem moved_leaf (k : Nat) (n : Node) : moved k (.leaf n) = .leaf (n.moved k) := rfl

@[simp] theorem label_moved (k : Nat) (t : Tree Node) : (moved k t).label = t.label.moved k := by
  cases t
  rfl

@[simp] theorem children_moved (k : Nat) (t : Tree Node) :
    (moved k t).children = t.children.map (moved k) := by
  cases t
  rw [moved_node, Tree.children, Tree.children]

theorem moved_zero (t : Tree Node) : moved 0 t = t := by
  induction t using Tree.induction with
  | h n ts ih =>
    rw [moved_node, List.map_congr_left ih, List.map_id']
    rfl

theorem moved_moved (j k : Nat) (t : Tree Node) : moved j (moved k t) = moved (j + k) t := by
  induction t using Tree.induction with
  | h n ts ih =>
    rw [moved_node, moved_node, moved_node, List.map_map]
    have hmap : ts.map (moved j ∘ moved k) = ts.map (moved (j + k)) := List.map_congr_left ih
    rw [hmap]
    simp only [Node.moved, Nat.add_assoc, Nat.add_comm k j]

theorem map_moved_moved (j k : Nat) (ts : List (Tree Node)) :
    (ts.map (moved k)).map (moved j) = ts.map (moved (j + k)) := by
  rw [List.map_map]
  exact List.map_congr_left fun t _ => moved_moved j k t

section Build

variable {f : Position → Position} {k : Nat} (hf : ∀ p, (f p).line = p.line + k)

def Build.Part.moved (f : Position → Position) (k : Nat) (part : Build.Part) : Build.Part :=
  ⟨part.source.relocate f, part.tree.map (Twig.moved k), part.inner.map (List.map (Twig.moved k))⟩

variable {t : ParseTree Rule} {ts : List (ParseTree Rule)} {parts : List Build.Part}

theorem cons_moved (x : Build.Result) (xs : Except Malformed (List (Tree Node))) :
    (do
      let a ← x.map (moved k)
      let as ← xs.map (List.map (moved k))
      .ok (a :: as)) =
    (do
      let a ← x
      let as ← xs
      .ok (a :: as) : Except Malformed (List (Tree Node))).map (List.map (moved k)) := by
  cases x with
  | error e => rfl
  | ok a =>
    cases xs with
    | error e => rfl
    | ok as => rfl

theorem leading_moved {go go' : Tree Node → List Build.Part → Build.Result}
    (h : ∀ a ps, go' (moved k a) (ps.map (Build.Part.moved f k)) = (go a ps).map (moved k))
    (place : Place) :
    Build.leading place (parts.map (Build.Part.moved f k)) go' =
      (Build.leading place parts go).map (moved k) := by
  rcases parts with _ | ⟨⟨_, x, _⟩, rest⟩
  · rfl
  · cases x with
    | error e => rfl
    | ok a => exact h a rest

theorem joinChain_moved (left : Tree Node) :
    Build.joinChain (moved k left) (parts.map (Build.Part.moved f k)) =
      (Build.joinChain left parts).map (moved k) := by
  induction left, parts using Build.joinChain.induct with
  | case1 left => rfl
  | case2 left part => rfl
  | case3 left op right rest ih =>
    obtain ⟨source, x, _⟩ := right
    cases x with
    | error e => rfl
    | ok right =>
      have hnode : moved k (.node (.word .infixExpression op.source.text left.label.beginLine
            right.label.endLine) [left, right]) =
          .node (.word .infixExpression (op.source.relocate f).text (moved k left).label.beginLine
            (moved k right).label.endLine) [moved k left, moved k right] := by
        simp [Node.word, Node.moved]
      have hjoin := congrArg (Build.joinChain · (rest.map (Build.Part.moved f k))) hnode
      exact hjoin.symm.trans (ih right)

theorem readUnary_moved (ops : List String) (operand : Option (Tree Node)) :
    Build.readUnary ops (operand.map (moved k)) (parts.map (Build.Part.moved f k)) =
      (Build.readUnary ops operand parts).map fun x => (x.1, x.2.map (moved k)) := by
  induction parts generalizing ops operand with
  | nil => rfl
  | cons part parts ih =>
    obtain ⟨t, x, _⟩ := part
    rw [List.map_cons, Build.readUnary, Build.readUnary]
    simp only [Build.Part.moved, ParseTree.rule_relocate, ParseTree.text_relocate]
    split
    · exact ih _ operand
    · cases x with
      | error e => rfl
      | ok a => exact ih ops (some a)

theorem negations_moved (b e : Nat) (ops : List String) (a : Tree Node) :
    ops.foldl (Build.negate (b + k) (e + k)) (moved k a) =
      moved k (ops.foldl (Build.negate b e) a) := by
  induction ops generalizing a with
  | nil => rfl
  | cons op ops ih => exact ih (Build.negate b e a op)

theorem applyUnary_moved (b e : Nat) :
    Build.applyUnary (b + k) (e + k) (parts.map (Build.Part.moved f k)) =
      (Build.applyUnary b e parts).map (moved k) := by
  have hread : Build.readUnary [] none (parts.map (Build.Part.moved f k)) = _ :=
    readUnary_moved [] none
  rw [Build.applyUnary, hread, Build.applyUnary]
  rcases Build.readUnary [] none parts with _ | ⟨ops, _ | a⟩
  · rfl
  · rfl
  · exact congrArg Except.ok (negations_moved b e ops a)

theorem collect_moved :
    Build.collect (parts.map (Build.Part.moved f k)) =
      (Build.collect parts).map (List.map (moved k)) := by
  induction parts with
  | nil => rfl
  | cons part parts ih =>
    rw [List.map_cons, Build.collect, Build.collect, ih]
    exact cons_moved part.tree (Build.collect parts)

include hf

theorem spanning_relocate (kind : Kind) (t : ParseTree Rule) :
    Build.spanning kind (t.relocate f) = (Build.spanning kind t).moved k := by
  simp [Build.spanning, Node.plain, Node.moved, hf]

theorem wordLeaf_relocate (kind : Kind) (t : ParseTree Rule) :
    Build.wordLeaf kind (t.relocate f) = moved k (Build.wordLeaf kind t) := by
  simp [Build.wordLeaf, Node.word, Node.moved, hf]

theorem assign_moved (t : ParseTree Rule) (target : Tree Node) :
    Build.assign (t.relocate f) (moved k target) (parts.map (Build.Part.moved f k)) =
      (Build.assign t target parts).map (moved k) := by
  rcases parts with _ | ⟨op, _ | ⟨⟨_, x, _⟩, _⟩⟩
  · rfl
  · rfl
  · cases x with
    | error e => rfl
    | ok x =>
      have hnode : moved k (.node (.word .assignment op.source.text t.start.line t.stop.line)
            [target, x]) =
          .node (.word .assignment (op.source.relocate f).text (t.relocate f).start.line
            (t.relocate f).stop.line) [moved k target, moved k x] := by
        simp [Node.word, Node.moved, hf]
      exact congrArg Except.ok hnode.symm

theorem choose_moved (t : ParseTree Rule) (condition : Tree Node) :
    Build.choose (t.relocate f) (moved k condition) (parts.map (Build.Part.moved f k)) =
      (Build.choose t condition parts).map (moved k) := by
  rcases parts with _ | ⟨⟨_, x, _⟩, rest⟩
  · rfl
  · cases x with
    | error e => rfl
    | ok x =>
      rcases rest with _ | ⟨⟨_, y, _⟩, _⟩
      · rfl
      · cases y with
        | error e => rfl
        | ok y =>
          have hnode : moved k (.node (Build.spanning .conditionalExpression t)
                [condition, x, y]) =
              .node (Build.spanning .conditionalExpression (t.relocate f))
                [moved k condition, moved k x, moved k y] := by
            rw [moved_node, spanning_relocate hf]
            rfl
          exact congrArg Except.ok hnode.symm

theorem applyCalls_moved (callee : Tree Node) :
    Build.applyCalls (moved k callee) (parts.map (Build.Part.moved f k)) =
      (Build.applyCalls callee parts).map (moved k) := by
  induction parts generalizing callee with
  | nil => rfl
  | cons part parts ih =>
    obtain ⟨t, _, xs⟩ := part
    cases xs with
    | error e => rfl
    | ok as =>
      have hnode : moved k (.node (.plain .methodCall callee.label.beginLine t.stop.line)
            [callee, .node (Build.spanning .arguments t) as]) =
          .node (.plain .methodCall (moved k callee).label.beginLine (t.relocate f).stop.line)
            [moved k callee,
              .node (Build.spanning .arguments (t.relocate f)) (as.map (moved k))] := by
        simp [Node.plain, Node.moved, hf, spanning_relocate hf]
      have hrest := ih (.node (.plain .methodCall callee.label.beginLine t.stop.line)
        [callee, .node (Build.spanning .arguments t) as])
      rw [hnode] at hrest
      exact hrest

theorem assemble_moved (t : ParseTree Rule) (parts : List Build.Part) :
    Build.assemble (t.relocate f) (parts.map (Build.Part.moved f k)) =
      (Build.assemble t parts).map (moved k) := by
  unfold Build.assemble
  rw [ParseTree.rule_relocate]
  cases t.rule with
  | expr => exact leading_moved (fun _ _ => rfl) _
  | assignment => exact leading_moved (fun a _ => assign_moved hf t a) _
  | ternary => exact leading_moved (fun a _ => choose_moved hf t a) _
  | orExpr | andExpr | eqExpr | relExpr | addExpr =>
    exact leading_moved (fun a _ => joinChain_moved a) _
  | unary =>
    simp only [ParseTree.start_relocate, ParseTree.stop_relocate, hf]
    exact applyUnary_moved _ _
  | callChain => exact leading_moved (fun a _ => applyCalls_moved hf a) _
  | number => exact congrArg Except.ok (wordLeaf_relocate hf .literal t)
  | identifier => exact congrArg Except.ok (wordLeaf_relocate hf .name t)
  | _ => rfl

theorem part_relocate (t : ParseTree Rule) :
    Build.part (t.relocate f) = (Build.part t).moved f k := by
  induction t using ParseTree.induction with
  | h r p q s ts ih =>
    have hparts : (ts.map (ParseTree.relocate f)).map Build.part =
        (ts.map Build.part).map (Build.Part.moved f k) := by
      rw [List.map_map, List.map_map]
      exact List.map_congr_left ih
    have hassemble := assemble_moved hf (.node r p q s ts) (ts.map Build.part)
    rw [ParseTree.relocate_node] at hassemble ⊢
    rw [Build.part, Build.part, Build.partsOf_eq_map, Build.partsOf_eq_map, hparts]
    simp only [Build.Part.moved, hassemble, collect_moved, ParseTree.relocate_node]

theorem expression_relocate (t : ParseTree Rule) :
    Build.expression (t.relocate f) = (Build.expression t).map (moved k) :=
  congrArg Build.Part.tree (part_relocate hf t)

theorem statements_relocate
    (ih : ∀ t ∈ ts, Build.statement (t.relocate f) = (Build.statement t).map (moved k)) :
    Build.statements (ts.map (ParseTree.relocate f)) =
      (Build.statements ts).map (List.map (moved k)) := by
  induction ts with
  | nil => rfl
  | cons t ts ihts =>
    obtain ⟨ht, hts⟩ := List.forall_mem_cons.1 ih
    rw [List.map_cons, Build.statements, ParseTree.rule_relocate, expression_relocate hf, ht,
      ihts hts, Build.statements]
    split
    · exact cons_moved (Build.expression t) (Build.statements ts)
    · exact cons_moved (Build.statement t) (Build.statements ts)

theorem statement_relocate (t : ParseTree Rule) :
    Build.statement (t.relocate f) = (Build.statement t).map (moved k) := by
  induction t using ParseTree.induction with
  | h r p q s ts ih =>
    rw [ParseTree.relocate_node, Build.statement, Build.statement, statements_relocate hf ih]
    cases Build.statementKind? r with
    | none => rfl
    | some kind =>
      cases Build.statements ts with
      | error e => rfl
      | ok as =>
        have hnode : moved k (.node (.plain kind p.line q.line) as) =
            .node (.plain kind (f p).line (f q).line) (as.map (moved k)) := by
          rw [moved_node, hf, hf]
          rfl
        exact congrArg Except.ok hnode.symm

omit hf in
theorem modifiers_relocate (t : ParseTree Rule) :
    Build.modifiers (t.relocate f) = Build.modifiers t := by
  simp [Build.modifiers, List.any_map, Function.comp_def]

theorem importDecl_relocate (t : ParseTree Rule) :
    Build.importDecl (t.relocate f) = (Build.importDecl t).map (moved k) := by
  unfold Build.importDecl
  rw [ParseTree.children_relocate, spanning_relocate hf]
  cases t.children with
  | nil => rfl
  | cons name rest =>
    simp only [List.map_cons, ParseTree.text_relocate]
    rfl

theorem field_relocate (t : ParseTree Rule) :
    Build.field (t.relocate f) = (Build.field t).map (moved k) := by
  unfold Build.field
  rw [ParseTree.children_relocate, spanning_relocate hf]
  rcases t.children with _ | ⟨mods, _ | ⟨name, rest⟩⟩
  · rfl
  · rfl
  · simp only [List.map_cons, ParseTree.text_relocate, modifiers_relocate]
    rfl

theorem method_relocate (t : ParseTree Rule) :
    Build.method (t.relocate f) = (Build.method t).map (moved k) := by
  unfold Build.method
  rw [ParseTree.children_relocate, spanning_relocate hf]
  rcases t.children with _ | ⟨mods, _ | ⟨name, _ | ⟨params, rest⟩⟩⟩
  · rfl
  · rfl
  · rfl
  · have hparams : (params.children.map (ParseTree.relocate f)).map
          (Build.wordLeaf .formalParameter) =
        (params.children.map (Build.wordLeaf .formalParameter)).map (moved k) := by
      rw [List.map_map, List.map_map]
      exact List.map_congr_left fun u _ => wordLeaf_relocate hf .formalParameter u
    simp only [List.map_cons, ParseTree.text_relocate, modifiers_relocate,
      ParseTree.children_relocate, spanning_relocate hf, hparams]
    cases rest with
    | nil =>
      refine congrArg Except.ok (Eq.symm ?_)
      rw [moved_node, List.map_cons, moved_node]
      rfl
    | cons body rest =>
      simp only [List.map_cons, statement_relocate hf]
      cases Build.statement body with
      | error e => rfl
      | ok a =>
        refine congrArg Except.ok (Eq.symm ?_)
        rw [moved_node, List.map_cons, moved_node]
        rfl

theorem member_relocate (t : ParseTree Rule) :
    Build.member (t.relocate f) = (Build.member t).map (moved k) := by
  unfold Build.member
  rw [ParseTree.rule_relocate]
  cases t.rule with
  | fieldDecl => exact field_relocate hf t
  | methodDecl => exact method_relocate hf t
  | _ => rfl

theorem members_relocate (ts : List (ParseTree Rule)) :
    (ts.map (ParseTree.relocate f)).mapM Build.member =
      (ts.mapM Build.member).map (List.map (moved k)) := by
  induction ts with
  | nil => rfl
  | cons t ts ih =>
    rw [List.map_cons, List.mapM_cons, List.mapM_cons, member_relocate hf, ih]
    exact cons_moved (Build.member t) (ts.mapM Build.member)

theorem classDecl_relocate (t : ParseTree Rule) :
    Build.classDecl (t.relocate f) = (Build.classDecl t).map (moved k) := by
  unfold Build.classDecl
  rw [ParseTree.children_relocate, spanning_relocate hf]
  cases t.children with
  | nil => rfl
  | cons name members =>
    simp only [List.map_cons, members_relocate hf, ParseTree.text_relocate]
    cases members.mapM Build.member with
    | error e => rfl
    | ok as =>
      refine congrArg Except.ok (Eq.symm ?_)
      rw [moved_node]
      rfl

/-- Declarations whose parse trees are moved down are built into trees that are. -/
theorem declarations_relocate (ts : List (ParseTree Rule)) :
    Build.declarations (ts.map (ParseTree.relocate f)) =
      (Build.declarations ts).map (List.map (moved k)) := by
  induction ts with
  | nil => rfl
  | cons t ts ih =>
    rw [List.map_cons, Build.declarations, Build.declarations, ParseTree.rule_relocate,
      importDecl_relocate hf, classDecl_relocate hf, ih]
    cases t.rule with
    | importDecl => exact cons_moved (Build.importDecl t) (Build.declarations ts)
    | classDecl => exact cons_moved (Build.classDecl t) (Build.declarations ts)
    | _ => rfl

end Build

end Twig

end TreeMetrics
