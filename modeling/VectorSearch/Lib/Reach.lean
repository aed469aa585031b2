import Mathlib.Data.List.Nodup
import Mathlib.Logic.Relation
import Mathlib.Data.Set.Insert

/-! # Reachability over link lists

`next a` lists the nodes that `a` links to, and `Reach next a b` says that `b` can be reached from
`a`.  A set that is closed under the links contains what can be reached from it
(`Reach.mem_of_closed`).

`Explored` is the invariant of a worklist search: the visited nodes can be reached, and the links of
a visited node that is not on the worklist lead to visited nodes, except that `rest` of the links of
the node at hand are still to be looked at.  When nothing is left the visited nodes are all that can
be reached (`Explored.mem_iff`).

`Connected.insert` adds a node to a connected set by one link in each direction. -/

namespace Links

variable {V : Type} {next next' : V → List V}

/-- `b` can be reached from `a`. -/
def Reach (next : V → List V) : V → V → Prop := Relation.ReflTransGen fun a b => b ∈ next a

theorem Reach.refl (a : V) : Reach next a a := Relation.ReflTransGen.refl

theorem Reach.step {a b c : V} (h : Reach next a b) (hc : c ∈ next b) : Reach next a c := h.tail hc

theorem Reach.trans {a b c : V} (h : Reach next a b) (h' : Reach next b c) : Reach next a c :=
  Relation.ReflTransGen.trans h h'

/-- A set closed under the links contains what can be reached from it. -/
theorem Reach.mem_of_closed {S : V → Prop} (hclosed : ∀ a, S a → ∀ b ∈ next a, S b) {a b : V}
    (h : Reach next a b) (ha : S a) : S b := by
  induction h with
  | refl => exact ha
  | tail _ hb ih => exact hclosed _ ih _ hb

/-! ### Worklist search -/

/-- The state of a search from `entry`: visited nodes, worklist, and the links `rest` of the node
`cur` that have not been looked at. -/
structure Explored (next : V → List V) (entry : V) (visited front : List V) (cur : V)
    (rest : List V) : Prop where
  entry_mem : entry ∈ visited
  reach : ∀ v ∈ visited, Reach next entry v
  closed : ∀ v ∈ visited, v ∉ front → ∀ w ∈ next v, w ∈ visited ∨ v = cur ∧ w ∈ rest

theorem Explored.start (next : V → List V) (entry : V) :
    Explored next entry [entry] [entry] entry [] where
  entry_mem := List.mem_cons_self
  reach v hv := by
    rw [List.mem_singleton.mp hv]
    exact Reach.refl _
  closed v hv hfront := absurd hv hfront

variable {entry cur a : V} {visited front front' rest : List V}

/-- Take a node off the worklist. -/
theorem Explored.pop (h : Explored next entry visited front cur [])
    (hperm : front.Perm (a :: front')) : Explored next entry visited front' a (next a) where
  entry_mem := h.entry_mem
  reach := h.reach
  closed v hv hfront w hw := by
    by_cases hva : v = a
    · exact Or.inr ⟨hva, hva ▸ hw⟩
    · refine (h.closed v hv ?_ w hw).imp_right fun hrest => nomatch hrest.2
      rw [hperm.mem_iff, List.mem_cons]
      exact not_or.mpr ⟨hva, hfront⟩

/-- A link to a node that is already visited. -/
theorem Explored.skip (h : Explored next entry visited front cur (a :: rest)) (ha : a ∈ visited) :
    Explored next entry visited front cur rest where
  entry_mem := h.entry_mem
  reach := h.reach
  closed v hv hfront w hw := by
    obtain hw | ⟨hcur, hw⟩ := h.closed v hv hfront w hw
    · exact Or.inl hw
    · obtain rfl | hw := List.mem_cons.mp hw
      · exact Or.inl ha
      · exact Or.inr ⟨hcur, hw⟩

/-- A link to a new node, which goes on the worklist. -/
theorem Explored.visit (h : Explored next entry visited front cur (a :: rest))
    (ha : Reach next entry a) (hfront : ∀ v, v ∈ front' ↔ v = a ∨ v ∈ front) :
    Explored next entry (a :: visited) front' cur rest where
  entry_mem := List.mem_cons_of_mem _ h.entry_mem
  reach v hv := by
    obtain rfl | hv := List.mem_cons.mp hv
    · exact ha
    · exact h.reach v hv
  closed v hv hnot w hw := by
    rw [hfront, not_or] at hnot
    have hv := (List.mem_cons.mp hv).resolve_left hnot.1
    obtain hw | ⟨hcur, hw⟩ := h.closed v hv hnot.2 w hw
    · exact Or.inl (List.mem_cons_of_mem _ hw)
    · obtain rfl | hw := List.mem_cons.mp hw
      · exact Or.inl List.mem_cons_self
      · exact Or.inr ⟨hcur, hw⟩

/-- **When the worklist is empty, the visited nodes are those that can be reached.** -/
theorem Explored.mem_iff (h : Explored next entry visited [] cur []) (v : V) :
    v ∈ visited ↔ Reach next entry v := by
  refine ⟨h.reach v, fun hv => ?_⟩
  have hclosed : ∀ a, a ∈ visited → ∀ b ∈ next a, b ∈ visited := fun a ha b hb =>
    (h.closed a ha (List.not_mem_nil) b hb).resolve_right fun hrest => nomatch hrest.2
  exact hv.mem_of_closed hclosed h.entry_mem

/-! ### Connected sets -/

/-- Every node of the set can be reached from every other. -/
def Connected (next : V → List V) (S : Set V) : Prop := ∀ a ∈ S, ∀ b ∈ S, Reach next a b

/-- A node that is linked to and from a node of a connected set joins it. -/
theorem Connected.insert {S : Set V} (h : Connected next S) (hsub : ∀ a ∈ S, next a ⊆ next' a)
    (hclosed : ∀ a ∈ S, ∀ b ∈ next a, b ∈ S) {s : V} (hs : s ∈ S) (hto : s ∈ next' a)
    (hfrom : a ∈ next' s) : Connected next' (insert a S) := by
  have hmono : ∀ {b c}, b ∈ S → Reach next b c → Reach next' b c := by
    intro b c hb hreach
    induction hreach with
    | refl => exact Reach.refl _
    | tail hreach hc ih => exact ih.step (hsub _ (Reach.mem_of_closed hclosed hreach hb) hc)
  rintro b (rfl | hb) c (rfl | hc)
  · exact Reach.refl _
  · exact ((Reach.refl b).step hto).trans (hmono hs (h s hs c hc))
  · exact (hmono hb (h b hb s hs)).step hfrom
  · exact hmono hb (h b hb c hc)

end Links
