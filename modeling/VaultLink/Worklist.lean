import Mathlib.Data.List.Nodup
import Mathlib.Logic.Relation

/-!
# Breadth-first exploration

A queue starts with the root; its first node is taken out, visited, and its children are put at
the end. When the queue is empty, every node below the root has been visited. If every node but
the root is the child of one node only, no node is visited twice, and a node is visited after
the nodes above it.
-/
namespace VaultLink

section Worklist

variable {ν : Type} {children : ν → List ν}

/-- With some nodes visited and others pending, the exploration ends with these nodes visited. -/
inductive Explores (children : ν → List ν) : List ν → List ν → List ν → Prop
  | done (visited : List ν) : Explores children visited [] visited
  | visit {visited pending final : List ν} {node : ν}
      (h : Explores children (visited ++ [node]) (pending ++ children node) final) :
      Explores children visited (node :: pending) final

/-- One node is a child of the other. -/
def IsChild (children : ν → List ν) (child parent : ν) : Prop := child ∈ children parent

/-- Every node has one parent, but for the root, which has none. -/
structure Rooted (children : ν → List ν) (root : ν) : Prop where
  nodup : ∀ node, (children node).Nodup
  parent_unique : ∀ node parent parent', IsChild children node parent →
    IsChild children node parent' → parent = parent'
  root_not_child : ∀ node, root ∉ children node

/-- What holds between two visits. -/
structure Exploring (children : ν → List ν) (root : ν) (visited pending : List ν) : Prop where
  nodup : (visited ++ pending).Nodup
  root_mem : root ∈ visited ++ pending
  closed : ∀ node ∈ visited, ∀ child ∈ children node, child ∈ visited ++ pending
  parents : ∀ node ∈ visited ++ pending, node = root ∨ ∃ parent ∈ visited,
    IsChild children node parent
  ordered : ∀ earlier node later, visited ++ pending = earlier ++ node :: later →
    node = root ∨ ∃ parent ∈ earlier, IsChild children node parent

variable {root node : ν} {visited pending final : List ν}

theorem Exploring.start (root : ν) : Exploring children root [] [root] where
  nodup := List.nodup_singleton root
  root_mem := List.mem_singleton_self root
  closed := nofun
  parents node hnode := .inl (by simpa using hnode)
  ordered := by
    intro earlier node later h
    refine .inl (List.mem_singleton.mp ?_)
    rw [List.nil_append] at h
    rw [h]
    exact List.mem_append_right earlier List.mem_cons_self

/-- A visit keeps the invariant. -/
theorem Exploring.visit (hroo : Rooted children root)
    (h : Exploring children root visited (node :: pending)) :
    Exploring children root (visited ++ [node]) (pending ++ children node) := by
  have hsplit : visited ++ [node] ++ (pending ++ children node) =
      (visited ++ node :: pending) ++ children node := by simp
  -- the parent of a listed node is visited, and this one is not
  have hfr : ∀ child ∈ children node, child ∉ visited ++ node :: pending := by
    intro child hchild hmem
    obtain rfl | ⟨parent, hpar, hof⟩ := h.parents child hmem
    · exact hroo.root_not_child node hchild
    · cases hroo.parent_unique child node parent hchild hof
      exact (List.nodup_append.mp h.nodup).2.2 node hpar node List.mem_cons_self rfl
  refine ⟨?_, ?_, ?_, ?_, ?_⟩
  · rw [hsplit, List.nodup_append]
    refine ⟨h.nodup, hroo.nodup node, ?_⟩
    rintro listed hlisted child hchild rfl
    exact hfr listed hchild hlisted
  · rw [hsplit]
    exact List.mem_append_left _ h.root_mem
  · rw [hsplit]
    intro parent hpar child hchild
    obtain hpar | hpar := List.mem_append.mp hpar
    · exact List.mem_append_left _ (h.closed parent hpar child hchild)
    · obtain rfl := List.mem_singleton.mp hpar
      exact List.mem_append_right _ hchild
  · rw [hsplit]
    intro listed hlisted
    obtain hlisted | hchild := List.mem_append.mp hlisted
    · obtain hroot | ⟨parent, hpar, hof⟩ := h.parents listed hlisted
      · exact .inl hroot
      · exact .inr ⟨parent, List.mem_append_left _ hpar, hof⟩
    · exact .inr ⟨node, List.mem_append_right _ (List.mem_singleton_self node), hchild⟩
  · rw [hsplit]
    intro earlier listed later heq
    obtain ⟨between, hear, hrest⟩ | ⟨between, hlist, hrest⟩ :=
      List.append_eq_append_iff.mp heq
    · refine .inr ⟨node, ?_, ?_⟩
      · rw [hear]
        exact List.mem_append_left _ (List.mem_append_right visited List.mem_cons_self)
      · unfold IsChild
        rw [hrest]
        exact List.mem_append_right between List.mem_cons_self
    · cases between with
      | nil =>
        refine .inr ⟨node, ?_, ?_⟩
        · rw [← List.append_nil earlier, ← hlist]
          exact List.mem_append_right visited List.mem_cons_self
        · unfold IsChild
          rw [← List.nil_append (children node), ← hrest]
          exact List.mem_cons_self
      | cons first between =>
        obtain ⟨rfl, -⟩ := List.cons.inj hrest
        exact h.ordered earlier _ between hlist

/-- When the exploration ends, nothing is pending. -/
theorem Explores.exploring (hroo : Rooted children root)
    (h : Explores children visited pending final) (hinv : Exploring children root visited pending) :
    Exploring children root final [] := by
  induction h with
  | done visited => exact hinv
  | visit h ih => exact ih (hinv.visit hroo)

variable (h : Explores children [] [root] final)

include h

theorem Explores.nodup (hroo : Rooted children root) : final.Nodup := by
  have hend := (h.exploring hroo (.start root)).nodup
  rwa [List.append_nil] at hend

/-- The nodes visited are those at or below the root. -/
theorem Explores.mem_iff (hroo : Rooted children root) :
    node ∈ final ↔ Relation.ReflTransGen (IsChild children) node root := by
  have hend := h.exploring hroo (.start root)
  have hclosed := hend.closed
  have hroot := hend.root_mem
  have hodd := hend.ordered
  rw [List.append_nil] at hclosed hroot hodd
  constructor
  · intro hmem
    obtain ⟨earlier, later, hsplit⟩ := List.append_of_mem hmem
    induction hlen : earlier.length using Nat.strongRecOn
      generalizing node earlier later with
    | ind length ih =>
    obtain rfl | ⟨parent, hpar, hof⟩ := hodd earlier node later hsplit
    · exact .refl
    · obtain ⟨before, after, hbef⟩ := List.append_of_mem hpar
      refine .head hof (ih before.length ?_ ?_ before (after ++ node :: later) ?_ rfl)
      · rw [← hlen, hbef, List.length_append, List.length_cons]
        omega
      · rw [hsplit]
        exact List.mem_append_left _ hpar
      · rw [hsplit, hbef, List.append_assoc, List.cons_append]
  · intro hbelow
    induction hbelow using Relation.ReflTransGen.head_induction_on with
    | refl => exact hroot
    | head hof _ hpar => exact hclosed _ hpar _ hof

/-- A node is visited after all nodes above it. -/
theorem Explores.precedes (hroo : Rooted children root) {above : ν} {earlier later : List ν}
    (hsplit : final = earlier ++ node :: later)
    (habove : Relation.TransGen (IsChild children) node above) : above ∈ earlier := by
  have hodd := (h.exploring hroo (.start root)).ordered
  rw [List.append_nil] at hodd
  induction habove using Relation.TransGen.head_induction_on generalizing earlier later with
  | single hof =>
    obtain rfl | ⟨parent, hpar, hof'⟩ := hodd earlier _ later hsplit
    · exact absurd hof (hroo.root_not_child _)
    · rwa [hroo.parent_unique _ _ _ hof hof']
  | head hof _ ih =>
    obtain rfl | ⟨parent, hpar, hof'⟩ := hodd earlier _ later hsplit
    · exact absurd hof (hroo.root_not_child _)
    · cases hroo.parent_unique _ _ _ hof hof'
      obtain ⟨before, after, hbef⟩ := List.append_of_mem hpar
      have hparentSplit := hsplit
      rw [hbef, List.append_assoc, List.cons_append] at hparentSplit
      rw [hbef]
      exact List.mem_append_left _ (ih hparentSplit)

theorem Explores.pairwise (hroo : Rooted children root) :
    final.Pairwise fun node later => ¬Relation.TransGen (IsChild children) node later := by
  refine List.pairwise_iff_getElem.mpr fun i j hi hj hij habove => ?_
  have hsplit : final = final.take i ++ final[i] :: final.drop (i + 1) := by
    rw [List.getElem_cons_drop, List.take_append_drop]
  obtain ⟨k, hk, heq⟩ := List.mem_take_iff_getElem.mp (h.precedes hroo hsplit habove)
  have := (h.nodup hroo).getElem_inj_iff.mp heq
  omega

end Worklist

end VaultLink
