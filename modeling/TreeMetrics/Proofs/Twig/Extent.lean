import TreeMetrics.Proofs.Twig.Shape

namespace TreeMetrics

/-- The matches that have consumed something, as far as the survey can tell. -/
def Survey.solid {ρ : Type} (v : Survey ρ) (ts : List (ParseTree ρ)) : Nat :=
  ts.countP fun t => !v.nullable t.rule

/-- No match in the tree holds more than `n` others that have consumed something. -/
inductive ParseTree.Narrow {ρ : Type} (v : Survey ρ) (n : Nat) : ParseTree ρ → Prop where
  | node {r start stop text ts} : v.solid ts ≤ n → (∀ t ∈ ts, Narrow v n t) →
    Narrow v n (.node r start stop text ts)

namespace Derives

variable {ρ : Type} {v : Survey ρ} {g : Grammar ρ} {q : Bool} {x : Expr ρ} {c d : Cursor} {n : Nat}
variable {ts : List (ParseTree ρ)}

theorem length_rest_le (h : Derives g q x c (some (ts, d))) : d.rest.length ≤ c.rest.length := by
  obtain ⟨cs, hcs⟩ := h.spans
  rw [hcs.rest, List.length_append]
  exact Nat.le_add_left ..

theorem length_rest_lt {r : ρ} (hv : ∀ r, v.Holds g r) (hr : v.nullable r = false)
    (h : Derives g q (.call r) c (some (ts, d))) : d.rest.length < c.rest.length := by
  have hx : v.mayBeEmpty (.call r) = false := hr
  exact Survey.length_lt_of_derives hv hx h

theorem narrow_nil (h : Derives g q x c (some ([], d))) :
    v.solid [] + d.rest.length ≤ c.rest.length ∧ ∀ t ∈ ([] : List (ParseTree ρ)), t.Narrow v n := by
  rw [Survey.solid, List.countP_nil, Nat.zero_add]
  exact ⟨h.length_rest_le, List.forall_mem_nil _⟩

/-- The matches at the top have consumed characters of their own, and so have those inside. -/
theorem narrow (hv : ∀ r, v.Holds g r) (h : Derives g q x c (some (ts, d)))
    (hn : c.rest.length ≤ n) :
    v.solid ts + d.rest.length ≤ c.rest.length ∧ ∀ t ∈ ts, t.Narrow v n := by
  generalize ho : some (ts, d) = o at h
  induction h generalizing ts d with
  | empty | atEnd | star_nil | not =>
    cases ho
    exact narrow_nil (.empty (g := g) (q := false))
  | lit hd =>
    cases ho
    exact narrow_nil (.lit (g := g) (q := false) hd)
  | char hd =>
    cases ho
    exact narrow_nil (.char (g := g) (q := false) hd)
  | seq hx hy ihx ihy | star_cons hx hy ihx ihy =>
    cases ho
    obtain ⟨hts, hnts⟩ := ihx hn rfl
    obtain ⟨hus, hnus⟩ := ihy (Nat.le_trans hx.length_rest_le hn) rfl
    constructor
    · rw [Survey.solid, List.countP_append]
      unfold Survey.solid at hts hus
      omega
    · intro t ht
      rcases List.mem_append.1 ht with ht | ht
      · exact hnts t ht
      · exact hnus t ht
  | alt_left _ ih => exact ih hn ho
  | alt_right _ _ _ ih => exact ih hn ho
  | call_quiet _ ih | call_silent _ _ ih => exact ih hn ho
  | @call r c ts d hr hb ih =>
    cases ho
    obtain ⟨hts, hnts⟩ := ih hn rfl
    constructor
    · rw [Survey.solid, List.countP_singleton]
      split
      · rename_i hnull
        have hlt := (Derives.call hr hb).length_rest_lt hv (Bool.not_eq_true' _ ▸ hnull)
        omega
      · have hle := hb.length_rest_le
        omega
    · intro t ht
      rw [List.mem_singleton.1 ht]
      exact .node (by omega) hnts
  | _ => cases ho

end Derives

namespace Twig

variable {n : Nat} {t : ParseTree Rule} {ts : List (ParseTree Rule)} {a : Tree Node}
variable {as : List (Tree Node)}

theorem nullable_of_member (h : Build.member t = .ok a) : survey.nullable t.rule = false := by
  unfold Build.member at h
  split at h
  · rename_i hr
    rw [hr]
    rfl
  · rename_i hr
    rw [hr]
    rfl
  · cases h

theorem length_of_members (h : ts.mapM Build.member = .ok as) : as.length = survey.solid ts := by
  induction ts generalizing as with
  | nil =>
    cases h
    rfl
  | cons t ts ih =>
    rw [List.mapM_cons] at h
    obtain ⟨a, ha, h⟩ := bind_eq_ok_iff.1 h
    obtain ⟨bs, hbs, h⟩ := bind_eq_ok_iff.1 h
    cases h
    rw [Survey.solid, List.countP_cons, nullable_of_member ha, List.length_cons, ih hbs]
    rfl

theorem length_of_classDecl (ht : t.Narrow survey n) (h : Build.classDecl t = .ok a) :
    a.children.length ≤ n := by
  obtain @⟨r, start, stop, text, ts, hts, _⟩ := ht
  unfold Build.classDecl at h
  cases ts with
  | nil => cases h
  | cons u us =>
    obtain ⟨as, has, h⟩ := bind_eq_ok_iff.1 h
    cases h
    rw [Survey.solid, List.countP_cons] at hts
    have hlength := length_of_members has
    unfold Survey.solid at hlength
    exact Nat.le_trans (Nat.le_of_eq hlength) (Nat.le_trans (Nat.le_add_right ..) hts)

theorem length_of_importDecl (h : Build.importDecl t = .ok a) : a.children.length ≤ n := by
  unfold Build.importDecl at h
  split at h
  · cases h
  · cases h
    exact Nat.zero_le n

theorem length_of_declarations (hts : ∀ t ∈ ts, t.Narrow survey n)
    (h : Build.declarations ts = .ok as) : ∀ a ∈ as, a.children.length ≤ n := by
  induction ts generalizing as with
  | nil =>
    cases h
    exact List.forall_mem_nil _
  | cons t ts ih =>
    obtain ⟨ht, hts⟩ := List.forall_mem_cons.1 hts
    unfold Build.declarations at h
    split at h
    · obtain ⟨a, ha, h⟩ := bind_eq_ok_iff.1 h
      obtain ⟨bs, hbs, h⟩ := bind_eq_ok_iff.1 h
      cases h
      exact List.forall_mem_cons.2 ⟨length_of_importDecl ha, ih hts hbs⟩
    · obtain ⟨a, ha, h⟩ := bind_eq_ok_iff.1 h
      obtain ⟨bs, hbs, h⟩ := bind_eq_ok_iff.1 h
      cases h
      exact List.forall_mem_cons.2 ⟨length_of_classDecl ht ha, ih hts hbs⟩
    · exact ih hts h
    · cases h

/-- No declaration of a file has more children than the source has characters. -/
theorem length_children_le {source : String} (h : parse source = .ok a) :
    ∀ c ∈ a.children, c.children.length ≤ source.length := by
  obtain ⟨t, d, hd, h⟩ := parse_ok_iff.1 h
  have hlength : (Cursor.ofText source.toList).rest.length ≤ source.length :=
    Nat.le_of_eq String.length_toList
  obtain ⟨_, ht⟩ := hd.narrow survey_holds hlength
  obtain ⟨_, hts⟩ := ht t List.mem_cons_self
  obtain ⟨as, has, h⟩ := bind_eq_ok_iff.1 h
  cases h
  exact length_of_declarations hts has

end Twig

end TreeMetrics
