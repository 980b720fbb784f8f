import TreeMetrics.Proofs.Document.Lineage
import TreeMetrics.Proofs.Document.Search
import TreeMetrics.Proofs.Twig.Layers
import TreeMetrics.Proofs.Twig.Shape
import TreeMetrics.Proofs.Twig.Values

namespace TreeMetrics

namespace Document

variable {α : Type} {doc : Document α} {n : Nat}

/-- The nearest node with a property above another one is the first on the way up that has it. -/
theorem firstAncestor?_keep (doc : Document α) (n : NodeId) (p : NodeId → Bool) :
    doc.firstAncestor? n (.keep p) = (doc.ancestors n).find? p := by
  rw [firstAncestor?, Stream.first?_eq_head?, Stream.toList_sifted, Filter.filterMap_keep,
    List.head?_filter]
  rfl

theorem mem_ancestors_of_parent? {m p : Nat} (h : doc.parent? m = some p) :
    p ∈ doc.ancestors m := by
  rw [ancestors_of_parent? h]
  exact List.mem_cons_self

end Document

namespace Twig

open Document Report

variable {doc : Document Node} {n m c c' k index : Nat} {parent : Option NodeId} {t : Tree Node}

def isClassAt (doc : Document Node) (n : NodeId) : Bool := doc.isKind Kind.classDeclaration.text n

def isMethodAt (doc : Document Node) (n : NodeId) : Bool := doc.isKind Kind.methodDeclaration.text n

def isImportAt (doc : Document Node) (n : NodeId) : Bool :=
  doc.isKind Kind.importDeclaration.text n

theorem exists_stands_of_kind {k : Kind} (h : doc.isKind k.text n = true) :
    ∃ t parent index, doc.Stands n t parent index ∧ t.label.kind = k := by
  obtain ⟨t, parent, index, hs⟩ := exists_stands_of_isKind h
  rw [isKind_text hs] at h
  exact ⟨t, parent, index, hs, eq_of_beq h⟩

/-- What stands right below a file is an import or a class. -/
theorem IsFile.declaration_of_stands (hdoc : IsFile doc.tree) (h : doc.Stands n t parent index)
    (hk : t.label.kind.layer = 1) : IsImport t ∨ IsClass t := by
  have hlayers := hdoc.onLayer
  rcases hlayers.exists_above h (by omega) with ⟨-, h0⟩ | ⟨p, u, grand, i, hu, htu, h1⟩
  · omega
  rcases hlayers.exists_above hu (by omega) with ⟨rfl, -⟩ | ⟨_, v, _, _, _, _, h2⟩
  · generalize doc.tree = file at hdoc htu
    obtain ⟨imports, classes⟩ := hdoc
    exact (List.mem_append.1 htu).imp (imports t) (classes t)
  · omega

section File

variable (hdoc : IsFile doc.tree)

include hdoc

/-- No class stands inside another. -/
theorem IsFile.not_class_above (hc : isClassAt doc c = true) (hm : m ∈ doc.ancestors c) :
    isClassAt doc m = false := by
  obtain ⟨t, parent, index, hs, hk⟩ := exists_stands_of_kind hc
  have hlayer : t.label.kind.layer = 1 := by
    rw [hk]
    rfl
  obtain ⟨u, parent', index', hu, hlt⟩ := hdoc.onLayer.2.layer_lt hs (by omega) hm
  rw [isClassAt, isKind_text hu, isOf, beq_eq_false_iff_ne]
  intro hu
  rw [hu, hlayer] at hlt
  exact absurd hlt (by decide)

theorem IsFile.class_unique (hc : c ∈ doc.ancestors n) (hk : isClassAt doc c = true)
    (hc' : c' ∈ doc.ancestors n) (hk' : isClassAt doc c' = true) : c = c' := by
  induction n using Nat.strongRecOn with
  | ind n ih =>
    cases hp : doc.parent? n with
    | none =>
      rw [ancestors_of_none hp] at hc
      cases hc
    | some p =>
      rw [ancestors_of_parent? hp, List.mem_cons] at hc hc'
      rcases hc with rfl | hc
      · rcases hc' with rfl | hc'
        · rfl
        · exact absurd hk' (Bool.eq_false_iff.1 (hdoc.not_class_above hk hc'))
      · rcases hc' with rfl | hc'
        · exact absurd hk (Bool.eq_false_iff.1 (hdoc.not_class_above hk' hc))
        · exact ih p (parent?_lt hp).1 hc hc'

/-- The class around a node is the one class above it. -/
theorem IsFile.enclosingClass?_eq_some_iff :
    enclosingClass? doc n = some c ↔ c ∈ doc.ancestors n ∧ isClassAt doc c = true := by
  have hfind : enclosingClass? doc n = (doc.ancestors n).find? (isClassAt doc) :=
    firstAncestor?_keep doc n _
  rw [hfind]
  constructor
  · intro h
    exact ⟨List.mem_of_find?_eq_some h, List.find?_some h⟩
  · rintro ⟨hmem, hk⟩
    obtain ⟨c', h⟩ := Option.isSome_iff_exists.1 (List.find?_isSome.2 ⟨c, hmem, hk⟩)
    rw [h, hdoc.class_unique (List.mem_of_find?_eq_some h) (List.find?_some h) hmem hk]

/-- A class is the only declaration right below a file that has children. -/
theorem IsFile.class_of_child (h : doc.Stands n t parent index) (hk : t.label.kind.layer = 1)
    (hm : m ∈ doc.children n) : isClassAt doc n = true := by
  rw [isClassAt, isKind_text h]
  rcases hdoc.declaration_of_stands h hk with himport | hclass
  · obtain ⟨_⟩ := himport
    rw [h.children] at hm
    cases hm
  · obtain ⟨_⟩ := hclass
    rfl

theorem IsFile.class_of_member (h : doc.Stands n t parent index) (hk : t.label.kind.layer = 2) :
    ∃ c, doc.parent? n = some c ∧ isClassAt doc c = true := by
  cases h with
  | root => exact absurd (hdoc.onLayer.1.symm.trans hk) (by decide)
  | @child p a us v vs grand i hp =>
    have hparent := (Stands.child hp).parent?
    obtain ⟨hlayer, -⟩ := hdoc.onLayer.2.of_stands hp
    have ht := hlayer t (List.mem_append_right _ List.mem_cons_self)
    refine ⟨p, hparent, hdoc.class_of_child hp ?_ (mem_children_iff.2 hparent)⟩
    rw [Tree.label]
    omega

/-- Whatever is not a declaration of its own stands inside a class. -/
theorem IsFile.exists_class_above (h : doc.Stands n t parent index) (hk : 2 ≤ t.label.kind.layer) :
    ∃ c ∈ doc.ancestors n, isClassAt doc c = true := by
  induction h with
  | root =>
    rw [hdoc.onLayer.1] at hk
    exact absurd hk (by decide)
  | @child p a us v vs grand i hp ih =>
    have hparent := (Stands.child hp).parent?
    obtain ⟨hlayer, -⟩ := hdoc.onLayer.2.of_stands hp
    have hv := hlayer v (List.mem_append_right _ List.mem_cons_self)
    rw [ancestors_of_parent? hparent]
    by_cases hone : a.kind.layer = 1
    · exact ⟨p, List.mem_cons_self, hdoc.class_of_child hp hone (mem_children_iff.2 hparent)⟩
    · obtain ⟨c, hc, hclass⟩ := ih (by rw [Tree.label]; omega)
      exact ⟨c, List.mem_cons_of_mem p hc, hclass⟩

theorem IsFile.layer_of_stands (h : doc.Stands n t parent index) (hn : n ≠ root) :
    1 ≤ t.label.kind.layer := by
  cases h with
  | root => exact absurd rfl hn
  | child hp =>
    obtain ⟨hlayer, -⟩ := hdoc.onLayer.2.of_stands hp
    have ht := hlayer t (List.mem_append_right _ List.mem_cons_self)
    omega

theorem IsFile.enclosingClass?_eq_none_iff (hn : n < doc.size) :
    enclosingClass? doc n = none ↔
      n = root ∨ isImportAt doc n = true ∨ isClassAt doc n = true := by
  obtain ⟨t, parent, index, hs⟩ := exists_stands hn
  rw [Option.eq_none_iff_forall_ne_some]
  constructor
  · intro hnone
    by_contra hout
    push Not at hout
    obtain ⟨hroot, himport, hclass⟩ := hout
    have hpos := hdoc.layer_of_stands hs hroot
    by_cases hone : t.label.kind.layer = 1
    · rw [isImportAt, isKind_text hs] at himport
      rw [isClassAt, isKind_text hs] at hclass
      rcases hdoc.declaration_of_stands hs hone with ht | ht
      · cases ht
        exact himport rfl
      · cases ht
        exact hclass rfl
    · obtain ⟨c, hc, hk⟩ := hdoc.exists_class_above hs (by omega)
      exact hnone c (hdoc.enclosingClass?_eq_some_iff.2 ⟨hc, hk⟩)
  · intro hout c henclosing
    obtain ⟨hc, hk⟩ := hdoc.enclosingClass?_eq_some_iff.1 henclosing
    rcases hout with rfl | himport | hclass
    · rw [ancestors_of_none ((parent?_eq_none_iff hn).2 rfl)] at hc
      cases hc
    · obtain ⟨u, parent', index', hu, hkind⟩ := exists_stands_of_kind himport
      obtain ⟨v, parent'', index'', hv, hlt⟩ :=
        hdoc.onLayer.2.layer_lt hu (by rw [hkind]; decide) hc
      rw [isClassAt, isKind_text hv] at hk
      rw [eq_of_beq hk, hkind] at hlt
      exact absurd hlt (by decide)
    · exact absurd hk (Bool.eq_false_iff.1 (hdoc.not_class_above hclass hc))

/-- The methods of a class are the methods that it is around. -/
theorem IsFile.mem_operations_iff (hc : isClassAt doc c = true) :
    m ∈ operations doc c ↔ isMethodAt doc m = true ∧ enclosingClass? doc m = some c := by
  rw [operations_eq, List.mem_filter, mem_children_iff, hdoc.enclosingClass?_eq_some_iff, and_comm]
  apply and_congr_right
  intro hm
  constructor
  · intro hp
    exact ⟨mem_ancestors_of_parent? hp, hc⟩
  · rintro ⟨hmem, -⟩
    obtain ⟨t, parent, index, hs, hk⟩ := exists_stands_of_kind hm
    obtain ⟨p, hp, hclass⟩ := hdoc.class_of_member hs (by rw [hk]; rfl)
    rw [hp, hdoc.class_unique (mem_ancestors_of_parent? hp) hclass hmem hc]

end File

/-- A method is listed under one class and there once, the class that is found from the method by
going up. A class is found from the nodes below it, and from no others. -/
theorem method_listed_once (source : String) (t : Tree Node) (hp : parse source = .ok t) :
    (∀ c m, isClassAt (ofTree t) c = true → (m ∈ operations (ofTree t) c ↔
      isMethodAt (ofTree t) m = true ∧ enclosingClass? (ofTree t) m = some c)) ∧
    (∀ m, isMethodAt (ofTree t) m = true →
      ∃ c, isClassAt (ofTree t) c = true ∧ (operations (ofTree t) c).count m = 1 ∧
        ∀ c', isClassAt (ofTree t) c' = true → m ∈ operations (ofTree t) c' → c' = c) ∧
    ∀ n < (ofTree t).size,
      (∀ c, enclosingClass? (ofTree t) n = some c ↔
        isClassAt (ofTree t) c = true ∧ n ∈ (ofTree t).descendants c) ∧
      (enclosingClass? (ofTree t) n = none ↔
        n = root ∨ isImportAt (ofTree t) n = true ∨ isClassAt (ofTree t) n = true) := by
  obtain ⟨pt, hfits, hb⟩ := exists_fits_of_parse hp
  have hfile : IsFile (ofTree t).tree := isFile_of_builds hfits hb
  refine ⟨fun c m => hfile.mem_operations_iff, ?_, ?_⟩
  · intro m hm
    obtain ⟨u, parent, index, hs, hk⟩ := exists_stands_of_kind hm
    obtain ⟨c, hparent, hclass⟩ := hfile.class_of_member hs (by rw [hk]; rfl)
    have hmem : m ∈ operations (ofTree t) c := by
      rw [operations_eq]
      exact List.mem_filter.2 ⟨mem_children_iff.2 hparent, hm⟩
    refine ⟨c, hclass, ?_, ?_⟩
    · rw [operations_eq] at hmem ⊢
      exact List.count_eq_one_of_mem ((nodup_children _ c).filter _) hmem
    · intro c' hclass' hmem'
      obtain ⟨-, h⟩ := (hfile.mem_operations_iff hclass).1 hmem
      obtain ⟨-, h'⟩ := (hfile.mem_operations_iff hclass').1 hmem'
      rw [h] at h'
      exact (Option.some.inj h').symm
  · intro n hn
    refine ⟨fun c => ?_, hfile.enclosingClass?_eq_none_iff hn⟩
    rw [hfile.enclosingClass?_eq_some_iff, and_comm]
    apply and_congr_right
    intro hclass
    obtain ⟨u, parent, index, hs, -⟩ := exists_stands_of_kind hclass
    exact (mem_descendants_iff (Nat.lt_of_lt_of_le (Nat.lt_add_of_pos_right u.size_pos)
      hs.add_size_le) hn).symm

/-- Two classes that have a method of the same name behind an import. -/
def homonyms : String :=
  "import a.b; class C \x7b field x; method f() \x7b \x7d \x7d class D \x7b method f() \x7b return x; \x7d
    abstract method g(); \x7d"

theorem method_listed_once_homonyms :
    ∃ t, parse homonyms = .ok t ∧ operations (ofTree t) 7 = [8, 13] ∧
      enclosingClass? (ofTree t) 8 = some 7 ∧
      (∀ c, isClassAt (ofTree t) c = true → 8 ∈ operations (ofTree t) c → c = 7) ∧
      enclosingClass? (ofTree t) 12 = some 7 ∧ enclosingClass? (ofTree t) 1 = none := by
  have hrun : ((parse homonyms).toOption.map fun t =>
      ((isClassAt (ofTree t) 7, isMethodAt (ofTree t) 8, isImportAt (ofTree t) 1),
        operations (ofTree t) 7, (ofTree t).descendants 7, (ofTree t).size)) =
      some ((true, true, true), [8, 13], [8, 9, 10, 11, 12, 13, 14], 15) := by
    decide +kernel
  cases hp : parse homonyms with
  | error e =>
    rw [hp] at hrun
    cases hrun
  | ok t =>
    rw [hp] at hrun
    have hnodes := Option.some.inj hrun
    simp only [Prod.mk.injEq] at hnodes
    obtain ⟨⟨hclass, hmethod, himport⟩, hops, hbelow, hsize⟩ := hnodes
    obtain ⟨hiff, honce, hall⟩ := method_listed_once homonyms t hp
    have hmem : 8 ∈ operations (ofTree t) 7 := by
      rw [hops]
      exact List.mem_cons_self
    obtain ⟨c, -, -, hunique⟩ := honce 8 hmethod
    refine ⟨t, rfl, hops, ((hiff 7 8 hclass).1 hmem).2, ?_, ?_, ?_⟩
    · intro c' hc' hmem'
      rw [hunique c' hc' hmem', hunique 7 hclass hmem]
    · apply ((hall 12 (by rw [hsize]; decide)).1 7).2
      refine ⟨hclass, ?_⟩
      rw [hbelow]
      decide
    · exact (hall 1 (by rw [hsize]; decide)).2.2 (.inr (.inl himport))

end Twig

end TreeMetrics
