import TreeMetrics.Proofs.Twig.Census
import TreeMetrics.Proofs.Twig.Extent
import TreeMetrics.Proofs.Twig.Lines
import TreeMetrics.Twig.Measure

namespace TreeMetrics

/-- The matches lie one behind the other between two lines, and so do the parts of each. -/
inductive ParseTree.Ranged {ρ : Type} : Nat → Nat → List (ParseTree ρ) → Prop where
  | nil {i j} : i ≤ j → Ranged i j []
  | cons {i j t ts} : i ≤ t.start.line → Ranged t.start.line t.stop.line t.children →
    Ranged t.stop.line j ts → Ranged i j (t :: ts)

namespace ParseTree.Ranged

variable {ρ : Type} {i j k : Nat} {t : ParseTree ρ} {ts us : List (ParseTree ρ)}

theorem le (h : Ranged i j ts) : i ≤ j := by
  induction h with
  | nil h => exact h
  | cons hi _ _ ih ih' => exact Nat.le_trans hi (Nat.le_trans ih ih')

theorem widen (h : Ranged j k ts) (hi : i ≤ j) : Ranged i k ts := by
  cases h with
  | nil h => exact .nil (Nat.le_trans hi h)
  | cons hj ht hts => exact .cons (Nat.le_trans hi hj) ht hts

theorem tail (h : Ranged i j (t :: ts)) : Ranged i j ts := by
  cases h with
  | cons hi ht hts => exact hts.widen (Nat.le_trans hi ht.le)

theorem append (h : Ranged i j ts) (h' : Ranged j k us) : Ranged i k (ts ++ us) := by
  induction h with
  | nil h => exact h'.widen h
  | cons hi ht _ _ ih => exact .cons hi ht (ih h')

end ParseTree.Ranged

theorem Derives.line_le {ρ : Type} {g : Grammar ρ} {q : Bool} {x : Expr ρ} {c d : Cursor}
    {ts : List (ParseTree ρ)} (h : Derives g q x c (some (ts, d))) :
    c.position.line ≤ d.position.line := by
  obtain ⟨cs, hs⟩ := h.spans
  rw [hs.position, Position.after_line]
  exact Nat.le_add_right ..

open ParseTree in
theorem Derives.ranged {ρ : Type} {g : Grammar ρ} {q : Bool} {x : Expr ρ} {c d : Cursor}
    {ts : List (ParseTree ρ)} (h : Derives g q x c (some (ts, d))) :
    Ranged c.position.line d.position.line ts := by
  generalize ho : some (ts, d) = o at h
  induction h generalizing ts d with
  | empty | atEnd | star_nil | not =>
    cases ho
    exact .nil (Nat.le_refl _)
  | lit hd =>
    cases ho
    exact .nil (line_le (.lit (g := g) (q := q) hd))
  | char hd =>
    cases ho
    exact .nil (line_le (.char (g := g) (q := q) hd))
  | seq _ _ ihx ihy | star_cons _ _ ihx ihy =>
    cases ho
    exact (ihx rfl).append (ihy rfl)
  | alt_left _ ih => exact ih ho
  | alt_right _ _ _ ih => exact ih ho
  | call_quiet _ ih | call_silent _ _ ih => exact ih ho
  | call _ _ ih =>
    cases ho
    exact .cons (Nat.le_refl _) (ih rfl) (.nil (Nat.le_refl _))
  | _ => cases ho

namespace Twig

/-- The trees lie one behind the other between two lines, and so do the children of each. -/
inductive Nested : Nat → Nat → List (Tree Node) → Prop where
  | nil {i j} : i ≤ j → Nested i j []
  | cons {i j a as} : i ≤ a.label.beginLine →
    Nested a.label.beginLine a.label.endLine a.children → Nested a.label.endLine j as →
    Nested i j (a :: as)

namespace Nested

variable {i j k l : Nat} {a b : Tree Node} {as bs : List (Tree Node)}
variable {kind : Kind} {image : Option String} {mods : Modifiers}

theorem le (h : Nested i j as) : i ≤ j := by
  induction h with
  | nil h => exact h
  | cons hi _ _ ih ih' => exact Nat.le_trans hi (Nat.le_trans ih ih')

theorem widen (h : Nested j k as) (hi : i ≤ j) (hl : k ≤ l) : Nested i l as := by
  induction h generalizing i with
  | nil h => exact .nil (Nat.le_trans hi (Nat.le_trans h hl))
  | cons hj ha _ _ ih => exact .cons (Nat.le_trans hi hj) ha (ih (Nat.le_refl _) hl)

theorem append (h : Nested i j as) (h' : Nested j k bs) : Nested i k (as ++ bs) := by
  induction h with
  | nil h => exact h'.widen h (Nat.le_refl _)
  | cons hi ha _ _ ih => exact .cons hi ha (ih h')

theorem push (h : Nested j k [a]) (hi : i ≤ j) (h' : Nested k l as) : Nested i l (a :: as) :=
  (h.widen hi (Nat.le_refl _)).append h'

theorem node (h : Nested i j as) : Nested i j [.node ⟨kind, image, mods, i, j⟩ as] :=
  .cons (Nat.le_refl _) h (.nil (Nat.le_refl _))

/-- A tree lies between its own lines, too. -/
theorem inv_singleton (h : Nested i j [a]) :
    i ≤ a.label.beginLine ∧ Nested a.label.beginLine a.label.endLine [a] ∧
      a.label.endLine ≤ j := by
  cases h with
  | cons hi ha hj => exact ⟨hi, .cons (Nat.le_refl _) ha (.nil (Nat.le_refl _)), hj.le⟩

/-- Two trees in a node that begins with the first of them. -/
theorem pair (h : Nested i j [a]) (h' : Nested j k [b]) (hl : b.label.endLine ≤ l) (hk : l ≤ k) :
    Nested i k [.node ⟨kind, image, mods, a.label.beginLine, l⟩ [a, b]] := by
  obtain ⟨hi, ha, hj⟩ := h.inv_singleton
  obtain ⟨hj', hb, -⟩ := h'.inv_singleton
  have hab := ha.append (hb.widen (Nat.le_trans hj hj') hl)
  exact (node hab).widen hi hk

end Nested

namespace Build

/-- What is made of a match lies between its lines if the parts of the match do. -/
def Keeps (f : ParseTree Rule → Result) (t : ParseTree Rule) : Prop :=
  ParseTree.Ranged t.start.line t.stop.line t.children →
    ∀ a, f t = .ok a → Nested t.start.line t.stop.line [a]

/-- What is made of a part lies between its lines. -/
structure Part.Within (p : Part) : Prop where
  le : p.source.start.line ≤ p.source.stop.line
  tree : ∀ a, p.tree = .ok a → Nested p.source.start.line p.source.stop.line [a]
  inner : ∀ as, p.inner = .ok as → Nested p.source.start.line p.source.stop.line as

/-- The parts lie one behind the other between two lines, each with its trees between its lines. -/
inductive Spread : Nat → Nat → List Part → Prop where
  | nil {i j} : i ≤ j → Spread i j []
  | cons {i j p ps} : i ≤ p.source.start.line → p.Within → Spread p.source.stop.line j ps →
    Spread i j (p :: ps)

variable {i j k : Nat} {kind : Kind} {t : ParseTree Rule} {ts : List (ParseTree Rule)}
variable {a left : Tree Node} {as : List (Tree Node)} {p : Part} {ps : List Part}

theorem Spread.le (h : Spread i j ps) : i ≤ j := by
  induction h with
  | nil h => exact h
  | cons hi hp _ ih => exact Nat.le_trans hi (Nat.le_trans hp.le ih)

theorem Spread.head (h : Spread i j (p :: ps)) (ha : p.tree = .ok a) :
    Nested i p.source.stop.line [a] ∧ Spread p.source.stop.line j ps := by
  cases h with
  | cons hi hp hps => exact ⟨(hp.tree a ha).widen hi (Nat.le_refl _), hps⟩

theorem Spread.first (h : Spread i j (p :: ps)) (ha : p.tree = .ok a) : Nested i j [a] := by
  obtain ⟨ha, hps⟩ := h.head ha
  exact ha.widen (Nat.le_refl _) hps.le

theorem Spread.tail (h : Spread i j (p :: ps)) : Spread i j ps := by
  cases h with
  | cons hi hp hps =>
    have hj := Nat.le_trans hi hp.le
    cases hps with
    | nil h => exact .nil (Nat.le_trans hj h)
    | cons h hq hps => exact .cons (Nat.le_trans hj h) hq hps

theorem nested_joinChain (hl : Nested i j [left]) (hp : Spread j k ps)
    (h : joinChain left ps = .ok a) : Nested i k [a] := by
  fun_induction joinChain left ps generalizing j with
  | case1 left =>
    cases h
    exact hl.widen (Nat.le_refl _) hp.le
  | case2 => cases h
  | case3 left op p ps ih =>
    obtain ⟨b, hb, h⟩ := bind_eq_ok_iff.1 h
    obtain ⟨hr, hps⟩ := hp.tail.head hb
    exact ih b (hl.pair hr (Nat.le_refl _) hr.inv_singleton.2.2) hps h

theorem nested_readUnary {ops ops' : List String} {operand : Option (Tree Node)}
    (hp : Spread i j ps) (ho : ∀ b ∈ operand, Nested i j [b])
    (h : readUnary ops operand ps = .ok (ops', some a)) : Nested i j [a] := by
  induction ps generalizing ops operand with
  | nil =>
    cases h
    exact ho a rfl
  | cons p ps ih =>
    unfold readUnary at h
    split at h
    · exact ih hp.tail ho h
    · obtain ⟨b, hb, h⟩ := bind_eq_ok_iff.1 h
      apply ih hp.tail _ h
      rintro _ ⟨⟩
      exact hp.first hb

theorem nested_negations {ops : List String} (h : Nested i j [a]) :
    Nested i j [ops.foldl (negate i j) a] := by
  induction ops generalizing a with
  | nil => exact h
  | cons op ops ih => exact ih h.node

theorem nested_applyUnary {b e : Nat} (hp : Spread b e ps) (h : applyUnary b e ps = .ok a) :
    Nested b e [a] := by
  obtain ⟨⟨ops, _ | c⟩, hread, h⟩ := bind_eq_ok_iff.1 h
  · cases h
  · cases h
    exact nested_negations (nested_readUnary hp (by simp) hread)

theorem nested_applyCalls (hl : Nested i j [left]) (hp : Spread j k ps)
    (h : applyCalls left ps = .ok a) : Nested i k [a] := by
  induction ps generalizing left j with
  | nil =>
    cases h
    exact hl.widen (Nat.le_refl _) hp.le
  | cons p ps ih =>
    obtain ⟨bs, hbs, h⟩ := bind_eq_ok_iff.1 h
    cases hp with
    | cons hj hp hps =>
      have hargs : Nested j p.source.stop.line [.node (spanning .arguments p.source) bs] :=
        (hp.inner bs hbs).node.widen hj (Nat.le_refl _)
      exact ih (hl.pair hargs (Nat.le_refl _) (Nat.le_refl _)) hps h

theorem nested_collect (hp : Spread i j ps) (h : collect ps = .ok as) : Nested i j as := by
  induction ps generalizing as i with
  | nil =>
    cases h
    exact .nil hp.le
  | cons p ps ih =>
    obtain ⟨b, hb, h⟩ := bind_eq_ok_iff.1 h
    obtain ⟨bs, hbs, h⟩ := bind_eq_ok_iff.1 h
    cases h
    obtain ⟨hr, hps⟩ := hp.head hb
    exact hr.append (ih hps hbs)

theorem nested_wordLeaf (h : t.start.line ≤ t.stop.line) :
    Nested t.start.line t.stop.line [wordLeaf kind t] :=
  .node (.nil h)

/-- The operator of an assignment lies between its operands and makes no tree. -/
theorem nested_assign (hl : Nested t.start.line j [left]) (hp : Spread j t.stop.line ps)
    (h : assign t left ps = .ok a) : Nested t.start.line t.stop.line [a] := by
  rcases ps with _ | ⟨op, _ | ⟨value, ps⟩⟩
  · cases h
    exact hl.widen (Nat.le_refl _) hp.le
  · cases h
  · obtain ⟨b, hb, h⟩ := bind_eq_ok_iff.1 h
    cases h
    exact .node (hl.append (hp.tail.first hb))

theorem nested_choose (hl : Nested t.start.line j [left]) (hp : Spread j t.stop.line ps)
    (h : choose t left ps = .ok a) : Nested t.start.line t.stop.line [a] := by
  rcases ps with _ | ⟨yes, ps⟩
  · cases h
    exact hl.widen (Nat.le_refl _) hp.le
  · obtain ⟨b, hb, h⟩ := bind_eq_ok_iff.1 h
    obtain ⟨hb, hps⟩ := hp.head hb
    rcases ps with _ | ⟨no, ps⟩
    · cases h
    · obtain ⟨c, hc, h⟩ := bind_eq_ok_iff.1 h
      cases h
      exact .node (hl.append (hb.append (hps.first hc)))

theorem nested_leading {place : Place} {go : Tree Node → List Part → Result}
    (hgo : ∀ {j left ps}, Nested i j [left] → Spread j k ps → go left ps = .ok a → Nested i k [a])
    (hp : Spread i k ps) (h : leading place ps go = .ok a) : Nested i k [a] := by
  cases ps with
  | nil => cases h
  | cons p ps =>
    obtain ⟨b, hb, h⟩ := bind_eq_ok_iff.1 h
    obtain ⟨hb, hps⟩ := hp.head hb
    exact hgo hb hps h

theorem nested_assemble (hp : Spread t.start.line t.stop.line ps) (h : assemble t ps = .ok a) :
    Nested t.start.line t.stop.line [a] := by
  unfold assemble at h
  split at h
  case h_1 =>
    refine nested_leading (fun hl hps h => ?_) hp h
    cases h
    exact hl.widen (Nat.le_refl _) hps.le
  case h_2 => exact nested_leading nested_assign hp h
  case h_3 => exact nested_leading nested_choose hp h
  case h_4 | h_5 | h_6 | h_7 | h_8 => exact nested_leading nested_joinChain hp h
  case h_9 => exact nested_applyUnary hp h
  case h_10 => exact nested_leading nested_applyCalls hp h
  case h_11 | h_12 =>
    cases h
    exact nested_wordLeaf hp.le
  case h_13 => cases h

theorem spread_parts (h : ParseTree.Ranged i j ts)
    (hts : ∀ t ∈ ts, ParseTree.Ranged t.start.line t.stop.line t.children → (part t).Within) :
    Spread i j (ts.map part) := by
  induction h with
  | nil h => exact .nil h
  | @cons i j t ts hi ht _ _ ih =>
    obtain ⟨hw, hts⟩ := List.forall_mem_cons.1 hts
    rw [List.map_cons]
    have hp := hw ht
    refine .cons ?_ hp ?_
    · rwa [source_part]
    · rw [source_part]
      exact ih hts

theorem within_part (t : ParseTree Rule)
    (h : ParseTree.Ranged t.start.line t.stop.line t.children) : (part t).Within := by
  induction t using ParseTree.induction with
  | h r p q s ts ih =>
    have hp : Spread p.line q.line (ts.map part) := spread_parts h ih
    constructor
    · exact hp.le
    · intro a ha
      rw [tree_part, expression_node] at ha
      exact nested_assemble hp ha
    · intro as has
      rw [inner_part, arguments_node] at has
      exact nested_collect hp has

theorem keeps_expression (t : ParseTree Rule) : Keeps expression t := by
  intro h a ha
  have hw := (within_part t h).tree a ha
  rwa [source_part] at hw

theorem inv_statements (h : statements (t :: ts) = .ok as) :
    ∃ a bs, (expression t = .ok a ∨ statement t = .ok a) ∧ statements ts = .ok bs ∧
      as = a :: bs := by
  unfold statements at h
  dsimp only at h
  split at h
  all_goals
    obtain ⟨a, ha, h⟩ := bind_eq_ok_iff.1 h
    obtain ⟨bs, hbs, h⟩ := bind_eq_ok_iff.1 h
    cases h
  · exact ⟨a, bs, .inl ha, hbs, rfl⟩
  · exact ⟨a, bs, .inr ha, hbs, rfl⟩

theorem nested_statements (h : ParseTree.Ranged i j ts) (hts : ∀ t ∈ ts, Keeps statement t)
    (hs : statements ts = .ok as) : Nested i j as := by
  induction h generalizing as with
  | nil h =>
    cases hs
    exact .nil h
  | @cons i j t ts hi ht _ _ ih =>
    obtain ⟨hk, hts⟩ := List.forall_mem_cons.1 hts
    obtain ⟨a, bs, ha, hbs, rfl⟩ := inv_statements hs
    have hnested : Nested t.start.line t.stop.line [a] := by
      rcases ha with ha | ha
      · exact keeps_expression t ht a ha
      · exact hk ht a ha
    exact hnested.push hi (ih hts hbs)

theorem keeps_statement (t : ParseTree Rule) : Keeps statement t := by
  induction t using ParseTree.induction with
  | h r p q s ts ih =>
    intro h a ha
    unfold statement at ha
    split at ha
    · cases ha
    · obtain ⟨as, has, ha⟩ := bind_eq_ok_iff.1 ha
      cases ha
      exact .node (nested_statements h ih has)

theorem nested_wordLeaves (h : ParseTree.Ranged i j ts) :
    Nested i j (ts.map (wordLeaf kind)) := by
  induction h with
  | nil h => exact .nil h
  | cons hi ht _ _ ih => exact (nested_wordLeaf ht.le).push hi ih

/-- A method has a tree for its parameters, and one for its body if it has a body. -/
theorem inv_method (h : method t = .ok a) :
    ∃ mods name params rest body, t.children = mods :: name :: params :: rest ∧
      a = .node ⟨.methodDeclaration, some name.text, modifiers mods, t.start.line, t.stop.line⟩
        (.node (spanning .formalParameters params)
          (params.children.map (wordLeaf .formalParameter)) :: body) ∧
      (rest = [] ∧ body = [] ∨
        ∃ b bs c, rest = b :: bs ∧ statement b = .ok c ∧ body = [c]) := by
  unfold method at h
  split at h
  · rename_i mods name params rest hc
    dsimp only at h
    cases rest with
    | nil =>
      cases h
      exact ⟨mods, name, params, [], [], hc, rfl, .inl ⟨rfl, rfl⟩⟩
    | cons b bs =>
      obtain ⟨body, hbody, h⟩ := bind_eq_ok_iff.1 h
      cases h
      cases hs : statement b with
      | error e =>
        rw [hs] at hbody
        cases hbody
      | ok c =>
        rw [hs] at hbody
        cases hbody
        exact ⟨mods, name, params, b :: bs, [c], hc, rfl, .inr ⟨b, bs, c, rfl, hs, rfl⟩⟩
  · cases h

theorem keeps_method (t : ParseTree Rule) : Keeps method t := by
  intro h a ha
  obtain ⟨mods, name, params, rest, body, hc, rfl, hbody⟩ := inv_method ha
  rw [hc] at h
  apply Nested.node
  cases h.tail.tail with
  | cons hi hparams hrest =>
    apply Nested.push (Nested.node (nested_wordLeaves hparams)) hi
    rcases hbody with ⟨rfl, rfl⟩ | ⟨b, bs, c, rfl, hs, rfl⟩
    · exact .nil hrest.le
    · cases hrest with
      | cons hj hb hbs => exact (keeps_statement b hb c hs).widen hj hbs.le

/-- A member is a field, which has no parts, or a method. -/
theorem inv_member (h : member t = .ok a) :
    (t.rule = .fieldDecl ∧ ∃ image mods,
      a = .leaf ⟨.fieldDeclaration, image, mods, t.start.line, t.stop.line⟩) ∨
    t.rule = .methodDecl ∧ method t = .ok a := by
  unfold member at h
  split at h
  · rename_i hr
    unfold field at h
    split at h
    · cases h
      exact .inl ⟨hr, _, _, rfl⟩
    · cases h
  · rename_i hr
    exact .inr ⟨hr, h⟩
  · cases h

theorem inv_members (h : (t :: ts).mapM member = .ok as) :
    ∃ a bs, member t = .ok a ∧ ts.mapM member = .ok bs ∧ as = a :: bs := by
  rw [List.mapM_cons] at h
  obtain ⟨a, ha, h⟩ := bind_eq_ok_iff.1 h
  obtain ⟨bs, hbs, h⟩ := bind_eq_ok_iff.1 h
  cases h
  exact ⟨a, bs, ha, hbs, rfl⟩

theorem keeps_member (t : ParseTree Rule) : Keeps member t := by
  intro h a ha
  rcases inv_member ha with ⟨-, image, mods, rfl⟩ | ⟨-, ha⟩
  · exact .node (.nil h.le)
  · exact keeps_method t h a ha

theorem nested_members (h : ParseTree.Ranged i j ts) (hm : ts.mapM member = .ok as) :
    Nested i j as := by
  induction h generalizing as with
  | nil h =>
    cases hm
    exact .nil h
  | cons hi ht _ _ ih =>
    obtain ⟨a, bs, ha, hbs, rfl⟩ := inv_members hm
    exact (keeps_member _ ht a ha).push hi (ih hbs)

/-- A class has the trees of its members. -/
theorem inv_classDecl (h : classDecl t = .ok a) :
    ∃ name members as, t.children = name :: members ∧ members.mapM member = .ok as ∧
      a = .node ⟨.classDeclaration, some name.text, .none, t.start.line, t.stop.line⟩ as := by
  unfold classDecl at h
  split at h
  · cases h
  · rename_i name members hc
    obtain ⟨as, has, h⟩ := bind_eq_ok_iff.1 h
    cases h
    exact ⟨name, members, as, hc, has, rfl⟩

theorem keeps_classDecl (t : ParseTree Rule) : Keeps classDecl t := by
  intro h a ha
  obtain ⟨name, members, as, hc, has, rfl⟩ := inv_classDecl ha
  rw [hc] at h
  exact .node (nested_members h.tail has)

theorem inv_importDecl (h : importDecl t = .ok a) :
    ∃ image, a = .leaf ⟨.importDeclaration, image, .none, t.start.line, t.stop.line⟩ := by
  unfold importDecl at h
  split at h
  · cases h
  · cases h
    exact ⟨_, rfl⟩

theorem keeps_importDecl (t : ParseTree Rule) : Keeps importDecl t := by
  intro h a ha
  obtain ⟨image, rfl⟩ := inv_importDecl ha
  exact .node (.nil h.le)

/-- Imports and classes make declarations; the end of the input makes none. -/
theorem inv_declarations (h : declarations (t :: ts) = .ok as) :
    (t.rule = .endOfInput ∧ declarations ts = .ok as) ∨
    ∃ a bs, declarations ts = .ok bs ∧ as = a :: bs ∧
      (t.rule = .importDecl ∧ importDecl t = .ok a ∨
        t.rule = .classDecl ∧ classDecl t = .ok a) := by
  unfold declarations at h
  split at h
  · rename_i hr
    obtain ⟨a, ha, h⟩ := bind_eq_ok_iff.1 h
    obtain ⟨bs, hbs, h⟩ := bind_eq_ok_iff.1 h
    cases h
    exact .inr ⟨a, bs, hbs, rfl, .inl ⟨hr, ha⟩⟩
  · rename_i hr
    obtain ⟨a, ha, h⟩ := bind_eq_ok_iff.1 h
    obtain ⟨bs, hbs, h⟩ := bind_eq_ok_iff.1 h
    cases h
    exact .inr ⟨a, bs, hbs, rfl, .inr ⟨hr, ha⟩⟩
  · rename_i hr
    exact .inl ⟨hr, h⟩
  · cases h

theorem nested_declarations (h : ParseTree.Ranged i j ts) (hd : declarations ts = .ok as) :
    Nested i j as := by
  induction h generalizing as with
  | nil h =>
    cases hd
    exact .nil h
  | @cons i j t ts hi ht _ _ ih =>
    rcases inv_declarations hd with ⟨-, hd⟩ | ⟨a, bs, hbs, rfl, ⟨-, ha⟩ | ⟨-, ha⟩⟩
    · exact (ih hd).widen (Nat.le_trans hi ht.le) (Nat.le_refl _)
    · exact (keeps_importDecl t ht a ha).push hi (ih hbs)
    · exact (keeps_classDecl t ht a ha).push hi (ih hbs)

theorem keeps_file (t : ParseTree Rule) : Keeps file t := by
  intro h a ha
  obtain ⟨as, has, ha⟩ := bind_eq_ok_iff.1 ha
  cases ha
  exact .node (nested_declarations h has)

end Build

variable {a u : Tree Node} {source : String}

/-- The lines of a node and of its children. The number of lines leads from the first line to the
one behind the last, so counting them does not go below zero. -/
structure LinesNest (u : Tree Node) : Prop where
  pos : 1 ≤ u.label.beginLine
  le : u.label.beginLine ≤ u.label.endLine
  count : u.label.beginLine + lineCount u.label = u.label.endLine + 1
  within : ∀ a ∈ u.children,
    u.label.beginLine ≤ a.label.beginLine ∧ a.label.endLine ≤ u.label.endLine
  ordered : u.children.Pairwise fun a b => a.label.endLine ≤ b.label.beginLine

theorem Nested.of_mem_subtreesAll {i j : Nat} {as : List (Tree Node)} (h : Nested i j as)
    (hu : u ∈ Tree.subtreesAll as) :
    i ≤ u.label.beginLine ∧ Nested u.label.beginLine u.label.endLine u.children ∧
      u.label.endLine ≤ j := by
  induction h with
  | nil => cases hu
  | @cons i j a as hi ha has ih ih' =>
    obtain ⟨n, bs⟩ := a
    rw [Tree.subtreesAll, Tree.subtrees, List.cons_append, List.mem_cons, List.mem_append] at hu
    rcases hu with rfl | hu | hu
    · exact ⟨hi, ha, has.le⟩
    · obtain ⟨hb, hn, he⟩ := ih hu
      exact ⟨Nat.le_trans hi hb, hn, Nat.le_trans he has.le⟩
    · obtain ⟨hb, hn, he⟩ := ih' hu
      exact ⟨Nat.le_trans hi (Nat.le_trans ha.le hb), hn, he⟩

theorem mem_subtrees_self (u : Tree Node) : u ∈ u.subtrees := by
  cases u
  rw [Tree.subtrees]
  exact List.mem_cons_self

theorem mem_subtreesAll {as : List (Tree Node)} (h : u ∈ as) : u ∈ Tree.subtreesAll as := by
  rw [Tree.subtreesAll_eq_flatMap]
  exact List.mem_flatMap_of_mem h (mem_subtrees_self u)

theorem Nested.pairwise {i j : Nat} {as : List (Tree Node)} (h : Nested i j as) :
    as.Pairwise fun a b => a.label.endLine ≤ b.label.beginLine := by
  induction h with
  | nil => exact .nil
  | cons _ _ has _ ih =>
    apply List.Pairwise.cons _ ih
    intro b hb
    exact (has.of_mem_subtreesAll (mem_subtreesAll hb)).1

theorem lineCount_of_le {n : Node} (h : n.beginLine ≤ n.endLine) :
    n.beginLine + lineCount n = n.endLine + 1 := by
  have hle := Nat.le_succ_of_le h
  rw [lineCount, if_pos hle]
  exact Nat.add_sub_cancel' hle

theorem linesNest_of_parse (h : parse source = .ok a) (hu : u ∈ a.subtrees) : LinesNest u := by
  obtain ⟨t, d, hd, ha⟩ := parse_ok_iff.1 h
  cases hd.ranged with
  | cons hi ht _ =>
    have hfile := (Build.keeps_file t ht a ha).widen hi (Nat.le_refl _)
    rw [← subtreesAll_singleton] at hu
    obtain ⟨hb, hn, -⟩ := hfile.of_mem_subtreesAll hu
    constructor
    · exact hb
    · exact hn.le
    · exact lineCount_of_le hn.le
    · intro b hb
      obtain ⟨hb, -, he⟩ := hn.of_mem_subtreesAll (mem_subtreesAll hb)
      exact ⟨hb, he⟩
    · exact hn.pairwise

end Twig

end TreeMetrics
