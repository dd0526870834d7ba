import Mathlib

/-!
Dependency graphs with counters. A node keeps the list of its successors and the
number of edges into it that are still held; completing a node gives up its
edges, and a node whose counter falls to zero is ready. The counters agree with
the edges at all times, so a node is ready exactly when all its predecessors are
complete.
-/

namespace Vnfs

open Function List

structure DependencyGraph (ι : Type*) where
  successors : ι → List ι
  remaining : ι → Nat

namespace DependencyGraph

variable {ι : Type*}

def empty : DependencyGraph ι := ⟨fun _ => [], fun _ => 0⟩

/-- There is an edge from `i` to `j`. -/
def Edge (g : DependencyGraph ι) (i j : ι) : Prop := j ∈ g.successors i

/-- There is a path from `i` to `j`. -/
def Before (g : DependencyGraph ι) : ι → ι → Prop := Relation.ReflTransGen g.Edge

variable [DecidableEq ι]

def depend (index : ι) (g : DependencyGraph ι) (earlier : ι) : DependencyGraph ι where
  successors := update g.successors earlier (g.successors earlier ++ [index])
  remaining := update g.remaining index (g.remaining index + 1)

def dependAll (g : DependencyGraph ι) (index : ι) (earlier : List ι) : DependencyGraph ι :=
  earlier.foldl (depend index) g

/-- Give up one edge into `successor`; list it once none is left. -/
def release (st : (ι → Nat) × List ι) (successor : ι) : (ι → Nat) × List ι :=
  let remaining := update st.1 successor (st.1 successor - 1)
  (remaining, if remaining successor = 0 then st.2 ++ [successor] else st.2)

/-- Give up all edges out of `index`; the nodes that become ready are listed. -/
def complete (g : DependencyGraph ι) (index : ι) (ready : List ι) : DependencyGraph ι × List ι :=
  let st := (g.successors index).foldl release (g.remaining, ready)
  (⟨update g.successors index [], st.1⟩, st.2)

section Edges

variable {g : DependencyGraph ι} {index : ι} {i j : ι} {earlier : List ι}

theorem edge_depend {earlier : ι} :
    (depend index g earlier).Edge i j ↔ g.Edge i j ∨ (i = earlier ∧ j = index) := by
  unfold Edge depend
  by_cases h : i = earlier
  · subst h
    simp
  · simp [h]

theorem edge_dependAll :
    (g.dependAll index earlier).Edge i j ↔ g.Edge i j ∨ (i ∈ earlier ∧ j = index) := by
  induction earlier generalizing g with
  | nil => simp [dependAll]
  | cons first rest ih =>
    change ((depend index g first).dependAll index rest).Edge i j ↔ _
    rw [ih, edge_depend, mem_cons]
    tauto

theorem remaining_dependAll_of_ne (h : j ≠ index) :
    (g.dependAll index earlier).remaining j = g.remaining j := by
  induction earlier generalizing g with
  | nil => rfl
  | cons first rest ih =>
    change ((depend index g first).dependAll index rest).remaining j = _
    rw [ih]
    simp [depend, h]

omit [DecidableEq ι] in
theorem Before.mono {g' : DependencyGraph ι} (h : ∀ i j, g.Edge i j → g'.Edge i j) {i j : ι}
    (hb : g.Before i j) : g'.Before i j :=
  Relation.ReflTransGen.mono h i j hb

end Edges

section Counters

variable [Fintype ι] {g : DependencyGraph ι}

/-- Every counter is the number of edges into its node. -/
def Counted (g : DependencyGraph ι) : Prop :=
  ∀ j, g.remaining j = ∑ i, (g.successors i).count j

theorem counted_empty : Counted (empty : DependencyGraph ι) := by
  intro j
  simp [empty]

theorem sum_count_update (g : DependencyGraph ι) (index j : ι) (list : List ι) :
    (∑ i, (update g.successors index list i).count j) + (g.successors index).count j =
      (∑ i, (g.successors i).count j) + list.count j := by
  have hs : ∀ f : ι → List ι, ∑ i, (f i).count j =
      (f index).count j + ∑ i ∈ Finset.univ.erase index, (f i).count j :=
    fun f => (Finset.add_sum_erase _ _ (Finset.mem_univ index)).symm
  have hr : ∑ i ∈ Finset.univ.erase index, (update g.successors index list i).count j =
      ∑ i ∈ Finset.univ.erase index, (g.successors i).count j := by
    apply Finset.sum_congr rfl
    intro i hi
    rw [update_of_ne (Finset.ne_of_mem_erase hi)]
  rw [hs, hs g.successors, hr, update_self]
  omega

theorem Counted.depend (h : Counted g) (index earlier : ι) : Counted (depend index g earlier) := by
  intro j
  have hs := sum_count_update g earlier j (g.successors earlier ++ [index])
  have hj := h j
  change update g.remaining index _ j = ∑ i, (update g.successors _ _ i).count j
  rw [count_append, count_singleton] at hs
  by_cases hi : j = index
  · subst hi
    simp only [update_self, BEq.rfl, if_true] at hs ⊢
    omega
  · have hne : (index == j) = false := by simpa using fun h => hi h.symm
    simp only [hne, Bool.false_eq_true, if_false, update_of_ne hi] at hs ⊢
    omega

theorem Counted.dependAll (h : Counted g) (index : ι) (earlier : List ι) :
    Counted (g.dependAll index earlier) := by
  induction earlier generalizing g with
  | nil => exact h
  | cons first rest ih => exact ih (h.depend index first)

theorem Counted.remaining_eq_zero_iff (h : Counted g) (j : ι) :
    g.remaining j = 0 ↔ ∀ i, ¬ g.Edge i j := by
  rw [h j, Finset.sum_eq_zero_iff]
  simp [Edge, count_eq_zero]

omit [Fintype ι] in
/-- Releasing a list of edges: the counters fall by their numbers, and the nodes
listed are those that reach zero on the way. -/
theorem release_foldl {edges : List ι} {remaining : ι → Nat} {ready : List ι}
    (hh : ∀ j, edges.count j ≤ remaining j) :
    ∃ released, edges.foldl release (remaining, ready) =
        (fun j => remaining j - edges.count j, ready ++ released) ∧ released.Nodup ∧
      ∀ j, j ∈ released ↔ j ∈ edges ∧ remaining j = edges.count j := by
  induction edges generalizing remaining ready with
  | nil => exact ⟨[], by simp, nodup_nil, by simp⟩
  | cons first rest ih =>
    have hfs := hh first
    rw [count_cons_self] at hfs
    have hr : ∀ j, rest.count j ≤ update remaining first (remaining first - 1) j := by
      intro j
      have hj := hh j
      rw [count_cons] at hj
      by_cases h : j = first
      · subst h
        simp only [update_self]
        omega
      · rw [update_of_ne h]
        omega
    obtain ⟨released, hf, hnd, hm⟩ := @ih _ (release (remaining, ready) first).2 hr
    have hc : (fun j => update remaining first (remaining first - 1) j -
        rest.count j) = fun j => remaining j - (first :: rest).count j := by
      funext j
      rw [count_cons]
      by_cases h : j = first
      · subst h
        simp only [update_self, BEq.rfl, if_true]
        omega
      · have hne : (first == j) = false := by simpa using fun heq => h heq.symm
        simp [update_of_ne h, hne]
    have ho : ∀ j, j ≠ first → (j ∈ released ↔
        j ∈ first :: rest ∧ remaining j = (first :: rest).count j) := by
      intro j h
      have hne : (first == j) = false := by simpa using fun heq => h heq.symm
      rw [hm j, update_of_ne h, count_cons, hne, mem_cons]
      simp [h]
    have hs : first ∈ released ↔ 0 < rest.count first ∧ remaining first - 1 = rest.count first := by
      rw [hm first, update_self, count_pos_iff]
    change ∃ released, List.foldl release
      (update remaining first (remaining first - 1), (release (remaining, ready) first).2)
      rest = _ ∧ _
    rw [hf, hc]
    by_cases hl : remaining first = 1
    · -- The last edge into `first`: it is listed now and never again.
      have hn : first ∉ released := by
        rw [hs]
        omega
      refine ⟨first :: released, ?_, nodup_cons.mpr ⟨hn, hnd⟩, ?_⟩
      · simp [release, hl]
      intro j
      by_cases h : j = first
      · subst h
        simp only [mem_cons_self, true_and, true_iff, count_cons_self]
        omega
      · rw [mem_cons, ho j h]
        simp [h]
    refine ⟨released, ?_, hnd, ?_⟩
    · have : remaining first - 1 ≠ 0 := by omega
      simp [release, this]
    intro j
    by_cases h : j = first
    · subst h
      rw [hs, count_cons_self]
      simp only [mem_cons_self, true_and]
      omega
    · exact ho j h

/-- `g` is what is left of `whole` when the nodes in `done` are complete. -/
structure LeftOf (whole : DependencyGraph ι) (done : ι → Prop) (g : DependencyGraph ι) :
    Prop where
  counted : Counted g
  edge_iff : ∀ i j, g.Edge i j ↔ whole.Edge i j ∧ ¬ done i

variable {whole : DependencyGraph ι} {done : ι → Prop}

theorem LeftOf.ready_iff (h : LeftOf whole done g) (j : ι) :
    g.remaining j = 0 ↔ ∀ i, whole.Edge i j → done i := by
  rw [h.counted.remaining_eq_zero_iff]
  constructor
  · intro hn i he
    by_contra hd
    exact hn i ((h.edge_iff i j).mpr ⟨he, hd⟩)
  · intro hd i he
    obtain ⟨hwh, hno⟩ := (h.edge_iff i j).mp he
    exact hno (hd i hwh)

/-- Completing a node lists exactly the nodes that become ready by it. -/
theorem LeftOf.complete (h : LeftOf whole done g) (index : ι) (ready : List ι) :
    LeftOf whole (fun i => done i ∨ i = index) (g.complete index ready).1 ∧
    ∃ released, (g.complete index ready).2 = ready ++ released ∧ released.Nodup ∧
      ∀ j, j ∈ released ↔ g.remaining j ≠ 0 ∧ (g.complete index ready).1.remaining j = 0 := by
  have hh : ∀ j, (g.successors index).count j ≤ g.remaining j := by
    intro j
    rw [h.counted j]
    exact Finset.single_le_sum (fun i _ => Nat.zero_le ((g.successors i).count j))
      (Finset.mem_univ index)
  obtain ⟨released, hf, hnd, hm⟩ := @release_foldl _ _ _ _ ready hh
  have hr : ∀ j, (g.complete index ready).1.remaining j =
      g.remaining j - (g.successors index).count j := by
    intro j
    simp only [DependencyGraph.complete, hf]
  refine ⟨⟨?_, ?_⟩, released, by simp only [DependencyGraph.complete, hf], hnd, ?_⟩
  · intro j
    have hs := sum_count_update g index j []
    have hj := h.counted j
    rw [hr]
    change _ = ∑ i, (update g.successors index [] i).count j
    rw [count_nil] at hs
    omega
  · intro i j
    change j ∈ update g.successors index [] i ↔ _
    by_cases hi : i = index
    · simp [hi]
    have := h.edge_iff i j
    unfold Edge at this ⊢
    simp [this, hi]
  intro j
  rw [hm, hr, ← count_pos_iff]
  have := hh j
  omega

end Counters

section Order

variable {g : DependencyGraph ι} {done : ι → Prop}

omit [DecidableEq ι] in
/-- If every started node has complete predecessors, then it has complete ancestors. -/
theorem Before.ancestor_done {started : ι → Prop} (hs : ∀ i j, g.Edge i j → done j → started j)
    (hd : ∀ i j, g.Edge i j → started j → done i) {i j : ι} (hb : g.Before i j)
    (hne : i ≠ j) (hj : started j) : done i := by
  induction hb using Relation.ReflTransGen.head_induction_on with
  | refl => exact absurd rfl hne
  | head he hr ih =>
    rename_i i k
    by_cases hk : k = j
    · subst hk
      exact hd i k he hj
    · exact hd i k he (hs i k he (ih hk))

omit [DecidableEq ι] in
theorem done_of_ready_done [LinearOrder ι] [WellFoundedLT ι] {node : ι → Prop}
    (he : ∀ i j, g.Edge i j → i < j ∧ node i)
    (hr : ∀ j, node j → (∀ i, g.Edge i j → done i) → done j) : ∀ j, node j → done j := by
  intro j
  induction j using WellFoundedLT.induction with
  | ind j ih =>
    intro hj
    apply hr j hj
    intro i hij
    obtain ⟨hlt, hi⟩ := he i j hij
    exact ih i hlt hi

end Order

end DependencyGraph

end Vnfs
