import Leda.Lib.Checks
import Leda.Lib.Partition
import Leda.Graph.Model

/-!
# Partitioning a graph

`index.part` turns its arguments into clusters, one after the other, and keeps the
union of those it has accepted in a table `all`.  A cluster is accepted if it meets
`all` in no stage and if the outputs of its stages that are not decoupled stay
inside it; at the end `all` is compared with the stages of the graph, in both
directions.  That is the incremental test of `Leda.Lib.Admits`, on the relation
that the table `g.outputs` gives.

`index.verify` starts from the clusters of the graph.  It repeats the test for
disjointness and the two comparisons, and then walks the *connectors*, asking for
each whether `get_cluster` gives the same object at both ends.

If the table of outputs lists exactly the connectors with a producer
(`Graph.OutputsMatch`), both accept the partitions that keep tied stages together,
and nothing else: `part_eq_ok`, `verify_eq_ok`.  So what `part` returns passes
`verify` (`part_and_verify`).
-/

namespace Leda.Graph

open Leda.Lib
open List hiding Disjoint disjoint_comm

variable {S C K : Type}

/-! ## `index.part` -/

/-- An argument of `part`. -/
inductive Arg (S : Type) where
  /-- A stage. -/
  | stage (s : S)
  /-- A cluster object. -/
  | cluster (n : Nat)
  /-- A table that is neither: a list of stages. -/
  | list (ss : List S)
  /-- Any other value. -/
  | other

variable [DecidableEq S]

/-- The cluster that `part` makes of an argument: `i` clusters were there before it,
and `heap` holds the cluster objects of the program. -/
def Arg.toCluster (heap : Nat → Table S) (i : Nat) : Arg S → Option (Cluster S)
  | stage s => some ⟨.made i, .newCluster [s]⟩
  | cluster n => some ⟨.given n, heap n⟩
  | list ss => some ⟨.made i, .newCluster ss⟩
  | other => none

/-- The clusters that result from a list of arguments. -/
def resulting (heap : Nat → Table S) : Nat → List (Arg S) → List (Cluster S)
  | _, [] => []
  | i, a :: t =>
    match a.toCluster heap i with
    | some cl => cl :: resulting heap (i + 1) t
    | none => resulting heap i t

/-- The loops over the outputs of the stages of a cluster. -/
def checkOutputs (g : Graph S C K) (cl : Table S) : Except String Unit :=
  cl.stages.forM fun s ↦ (g.getOutput s).forM fun kc ↦
    let c := g.conn kc.2
    if c.type ≠ "decoupled" then
      assert (cl.contains c.consumer) ("Invalid cluster, stages '" ++ g.tostring s ++ "' and '" ++
        g.tostring c.consumer ++ "' cannot be on different clusters")
    else .ok ()

/-- The loop of `part` over its arguments. -/
def partLoop (g : Graph S C K) (heap : Nat → Table S) (all : Table S) (c : List (Cluster S)) :
    List (Arg S) → Except String (Table S × List (Cluster S))
  | [] => .ok (all, c)
  | a :: t =>
    match a.toCluster heap c.length with
    | some cl => do
        let i := all.intersection cl.table
        assert (i.size = 0) ("Invalid cluster, stages " ++ i.toStr g.name ++
          " are already clustered")
        g.checkOutputs cl.table
        g.partLoop heap (all.union cl.table) (c ++ [cl]) t
    | none => g.partLoop heap all c t

/-- `index.part`. -/
def part (g : Graph S C K) (heap : Nat → Table S) (args : List (Arg S)) :
    Except String (Graph S C K) := do
  g.stages.forM fun s ↦ (g.bind s).getD (.ok ())
  let r ← g.partLoop heap (.newCluster []) [] args
  assert ((g.all.sub r.1).size = 0) ("Invalid configuration, stages " ++
    (g.all.sub r.1).toStr g.name ++ " must be clustered")
  assert ((r.1.sub g.all).size = 0) ("Invalid cluster, stages " ++
    (r.1.sub g.all).toStr g.name ++ " are not on the graph")
  return { g with cluster := some r.2 }

/-! ## `index.verify` -/

/-- The loop of `verify` over the clusters. -/
def verifyLoop (g : Graph S C K) (all : Table S) : List (Cluster S) → Except String (Table S)
  | [] => .ok all
  | cl :: t => do
      let i := cl.table.intersection all
      assert (i.size = 0) ("Invalid cluster, stages " ++ i.toStr g.name ++
        " are already clustered")
      g.verifyLoop (all.union cl.table) t

/-- The loop of `verify` over the connectors. -/
def checkConnector (g : Graph S C K) (c : C) : Except String Unit :=
  match (g.conn c).producer with
  | none => .ok ()
  | some p =>
      if g.getCluster p ≠ g.getCluster (g.conn c).consumer then do
        let type ← (g.conn c).getType
        if type ≠ "decoupled" then
          .error ("Stages '" ++ g.tostring p ++ "' and '" ++ g.tostring (g.conn c).consumer ++
            "' are coupled and cannot be on different clusters")
        else .ok ()
      else .ok ()

/-- `index.verify`. -/
def verify (g : Graph S C K) : Except String Bool := do
  let all ← g.verifyLoop (.newCluster []) g.clusters
  assert ((all.sub g.all).size = 0) ("Invalid cluster, stages " ++
    (all.sub g.all).toStr g.name ++ " are not on the graph")
  assert ((g.all.sub all).size = 0) ("Invalid configuration, stages " ++
    (g.all.sub all).toStr g.name ++ " are not clustered")
  g.connectors.forM g.checkConnector
  return true

/-! ## What the loops accept -/

/-- The stages of a cluster object. -/
def Cluster.stageSet (c : Cluster S) : Set S := c.table.toSet

/-- The table of outputs lists exactly the connectors with a producer. -/
def OutputsMatch (g : Graph S C K) : Prop :=
  ∀ s c, (∃ key, (key, c) ∈ g.outputs s) ↔ c ∈ g.conns ∧ (g.conn c).producer = some s

/-- The union that a loop over clusters ends with. -/
def unionAll (all : Table S) (l : List (Cluster S)) : Table S :=
  l.foldl (fun all cl ↦ all.union cl.table) all

theorem toSet_unionAll {u : Table S} {l : List (Cluster S)} :
    (unionAll u l).toSet = u.toSet ∪ ⋃ cl ∈ l, cl.stageSet := by
  induction l generalizing u with
  | nil => simp [unionAll]
  | cons cl l ih =>
      have hstep : (u.union cl.table).toSet = u.toSet ∪ cl.stageSet := by
        ext s
        exact Table.mem_union
      change (unionAll (u.union cl.table) l).toSet = _
      rw [ih, hstep, Set.union_assoc]
      simp

/-- The two comparisons at the end of both functions. -/
theorem sub_sub_iff {g : Graph S C K} {u : Table S} :
    ((g.all.sub u).size = 0 ∧ (u.sub g.all).size = 0) ↔ u.toSet = g.stageSet := by
  have hall : g.all.toSet = g.stageSet := by
    ext s
    exact mem_all
  rw [Table.size_sub_eq_zero, Table.size_sub_eq_zero, hall, Set.Subset.antisymm_iff, and_comm]

/-- The outputs of the stages are checked against the ties of the graph. -/
theorem checkOutputs_eq_ok {g : Graph S C K} (h : g.OutputsMatch) {cl : Table S} :
    g.checkOutputs cl = .ok () ↔ TieClosed g.Tied cl.toSet := by
  rw [checkOutputs, forM_eq_ok]
  constructor
  · rintro hok s hs _ ⟨c, hc, ht, hp, rfl⟩
    obtain ⟨key, hkey⟩ := (h s c).2 ⟨hc, hp⟩
    have := forM_eq_ok.1 (hok s (Table.mem_stages.2 hs)) _ hkey
    simpa [ht, Table.contains] using this
  · intro hcl s hs
    refine forM_eq_ok.2 ?_
    rintro ⟨key, c⟩ hkey
    obtain ⟨hc, hp⟩ := (h s c).1 ⟨key, hkey⟩
    by_cases ht : (g.conn c).type = "decoupled"
    · simp [ht]
    · have : (g.conn c).consumer ∈ cl :=
        hcl s (Table.mem_stages.1 hs) _ ⟨c, hc, ht, hp, rfl⟩
      simp [ht, Table.contains, this]

/-- **What the loop of `part` accepts, and what it returns.** -/
theorem partLoop_eq_ok {g : Graph S C K} (h : g.OutputsMatch) {heap : Nat → Table S}
    {args : List (Arg S)} {u : Table S} {c : List (Cluster S)}
    {r : Table S × List (Cluster S)} :
    g.partLoop heap u c args = .ok r ↔
      Admits g.Tied Cluster.stageSet u.toSet (resulting heap c.length args) ∧
        r = (unionAll u (resulting heap c.length args), c ++ resulting heap c.length args) := by
  induction args generalizing u c with
  | nil => simp [partLoop, resulting, Admits, unionAll, eq_comm]
  | cons a args ih =>
      cases ha : a.toCluster heap c.length with
      | none => simp only [partLoop, resulting, ha, ih]
      | some cl =>
          have hset : (u.union cl.table).toSet = u.toSet ∪ cl.stageSet := by
            ext s
            exact Table.mem_union
          have hloop := ih (u := u.union cl.table) (c := c ++ [cl])
          rw [length_append, length_singleton, hset] at hloop
          simp only [partLoop, resulting, ha, seq_eq_ok, assert_eq_ok, decide_eq_true_eq,
            checkOutputs_eq_ok h, Table.size_intersection_eq_zero, hloop]
          simp [Admits, Cluster.stageSet, unionAll, and_assoc]

/-- The same for the loop of `verify`, where no tie is looked at. -/
theorem verifyLoop_eq_ok {g : Graph S C K} {l : List (Cluster S)} {u r : Table S} :
    g.verifyLoop u l = .ok r ↔
      Admits (fun _ _ ↦ False) Cluster.stageSet u.toSet l ∧ r = unionAll u l := by
  induction l generalizing u with
  | nil => simp [verifyLoop, Admits, unionAll, eq_comm]
  | cons cl l ih =>
      have hset : (u.union cl.table).toSet = u.toSet ∪ cl.stageSet := by
        ext s
        exact Table.mem_union
      have hloop := ih (u := u.union cl.table)
      rw [hset] at hloop
      simp only [verifyLoop, seq_eq_ok, assert_eq_ok, decide_eq_true_eq,
        Table.size_intersection_eq_zero, hloop]
      rw [disjoint_comm]
      simp [Admits, TieClosed, Cluster.stageSet, unionAll, and_assoc]

theorem toSet_newCluster_nil : (Table.newCluster [] : Table S).toSet = ∅ := by
  ext s
  simp

/-- What is tied is a stage of the graph. -/
theorem Tied.mem_stageSet {g : Graph S C K} {p q : S} (h : g.Tied p q) :
    p ∈ g.stageSet ∧ q ∈ g.stageSet := by
  obtain ⟨c, hc, -, hp, hq⟩ := h
  exact ⟨mem_stages.2 ⟨c, hc, .inl hp⟩, mem_stages.2 ⟨c, hc, .inr hq⟩⟩

/-- The clusters are pairwise disjoint, their union is the set of stages of the graph,
and the connectors that are not decoupled stay inside a cluster. -/
def Legal (g : Graph S C K) (l : List (Cluster S)) : Prop :=
  IsPartition g.stageSet g.Tied Cluster.stageSet l

/-- The bind functions of the stages return.  They are code from outside, which `part` calls and
`verify` does not. -/
def BindsReturn (g : Graph S C K) : Prop := ∀ s ∈ g.stages, ∀ r, g.bind s = some r → r = .ok ()

theorem binds_eq_ok {g : Graph S C K} :
    (g.stages.forM fun s ↦ (g.bind s).getD (.ok ())) = .ok () ↔ g.BindsReturn := by
  rw [forM_eq_ok]
  refine forall₂_congr fun s _ ↦ ?_
  cases g.bind s <;> simp

/-- **What `part` accepts, and the graph it returns.** -/
theorem part_eq_ok {g g' : Graph S C K} (h : g.OutputsMatch) {heap : Nat → Table S}
    {args : List (Arg S)} :
    g.part heap args = .ok g' ↔ g.BindsReturn ∧ g.Legal (resulting heap 0 args) ∧
      g' = { g with cluster := some (resulting heap 0 args) } := by
  rw [part, seq_eq_ok, binds_eq_ok, bind_eq_ok]
  simp only [seq_eq_ok, partLoop_eq_ok h, assert_eq_ok, decide_eq_true_eq]
  rw [Legal, isPartition_iff_admits fun x y hxy ↦ hxy.mem_stageSet.1]
  have hunion := toSet_unionAll (u := .newCluster []) (l := resulting heap 0 args)
  rw [toSet_newCluster_nil, Set.empty_union] at hunion
  have hsub := sub_sub_iff (g := g) (u := unionAll (.newCluster []) (resulting heap 0 args))
  rw [hunion] at hsub
  rw [← hsub, toSet_newCluster_nil]
  constructor
  · rintro ⟨hb, _, ⟨ha, rfl⟩, h₁, h₂, hg⟩
    cases hg
    exact ⟨hb, ⟨ha, h₁, h₂⟩, rfl⟩
  · rintro ⟨hb, ⟨ha, h₁, h₂⟩, rfl⟩
    exact ⟨hb, _, ⟨ha, rfl⟩, h₁, h₂, rfl⟩

/-! ## `get_cluster` -/

/-- `get_cluster` finds the only cluster a stage has. -/
theorem getCluster_eq_some {g : Graph S C K}
    (hd : g.clusters.Pairwise fun a b ↦ Disjoint a.stageSet b.stageSet) {s : S}
    {cl : Cluster S} : g.getCluster s = some cl ↔ cl ∈ g.clusters ∧ s ∈ cl.table := by
  constructor
  · intro hcl
    have hs := find?_some hcl
    exact ⟨mem_of_find?_eq_some hcl, of_decide_eq_true hs⟩
  · rintro ⟨hmem, hs⟩
    have hsome : (g.getCluster s).isSome := by
      rw [getCluster, find?_isSome]
      exact ⟨cl, hmem, decide_eq_true hs⟩
    obtain ⟨cl', hcl'⟩ := Option.isSome_iff_exists.1 hsome
    have hs' : s ∈ cl'.table := by
      have hc := find?_some hcl'
      exact of_decide_eq_true hc
    rw [hcl']
    exact congrArg some (eq_of_mem hd (mem_of_find?_eq_some hcl') hmem hs' hs)

/-! ## `index.verify` accepts the same partitions -/

/-- A connector with its ends in clusters passes the check of `verify` iff it is
decoupled or both ends have the same cluster. -/
theorem checkConnector_eq_ok {g : Graph S C K} {c : C} {p : S}
    (hp : (g.conn c).producer = some p) :
    g.checkConnector c = .ok () ↔ (g.conn c).type = "decoupled" ∨
      g.getCluster p = g.getCluster (g.conn c).consumer := by
  have hstep : g.checkConnector c = .ok () ↔
      (g.getCluster p ≠ g.getCluster (g.conn c).consumer → (g.conn c).type = "decoupled") := by
    simp only [checkConnector, hp]
    split
    · rename_i hne
      simp only [bind_eq_ok, Connector.getType_eq_ok]
      constructor
      · rintro ⟨t, ⟨-, rfl⟩, ht⟩ -
        by_contra hd
        simp [hd] at ht
      · intro ht
        exact ⟨_, ⟨.inr (.inl (ht hne)), rfl⟩, by simp [ht hne]⟩
    · rename_i heq
      simp only [true_iff]
      exact fun hne ↦ absurd hne heq
  rw [hstep]
  tauto

/-- The loop over the connectors, where the clusters are disjoint and cover the graph. -/
theorem checkConnectors_eq_ok {g : Graph S C K}
    (hd : g.clusters.Pairwise fun a b ↦ Disjoint a.stageSet b.stageSet)
    (hc : ⋃ cl ∈ g.clusters, cl.stageSet = g.stageSet) :
    g.connectors.forM g.checkConnector = .ok () ↔ g.Legal g.clusters := by
  -- without ties, the clusters already are a partition
  have hpart : IsPartition g.stageSet (fun _ _ ↦ False) Cluster.stageSet g.clusters :=
    ⟨hd, hc, fun _ _ h ↦ h.elim⟩
  rw [forM_eq_ok]
  constructor
  · intro hok
    refine ⟨hd, hc, ?_⟩
    rintro p q htied
    obtain ⟨cl, ⟨hmem, hpcl⟩, -⟩ := hpart.existsUnique htied.mem_stageSet.1
    obtain ⟨cl', ⟨hmem', hqcl⟩, -⟩ := hpart.existsUnique htied.mem_stageSet.2
    obtain ⟨c, hcm, ht, hp, rfl⟩ := htied
    have hcon : c ∈ g.connectors := mem_filter.2 ⟨hcm, by rw [hp]; rfl⟩
    have heq := ((checkConnector_eq_ok hp).1 (hok c hcon)).resolve_left ht
    rw [getCluster_eq_some hd |>.2 ⟨hmem, hpcl⟩, getCluster_eq_some hd |>.2 ⟨hmem', hqcl⟩] at heq
    obtain rfl := Option.some.inj heq
    exact ⟨cl, hmem, hpcl, hqcl⟩
  · intro hl c hcon
    obtain ⟨hcm, hsome⟩ := mem_filter.1 hcon
    obtain ⟨p, hp⟩ := Option.isSome_iff_exists.1 hsome
    rw [checkConnector_eq_ok hp, or_iff_not_imp_left]
    intro ht
    obtain ⟨cl, hmem, hpcl, hqcl⟩ := hl.together p _ ⟨c, hcm, ht, hp, rfl⟩
    rw [getCluster_eq_some hd |>.2 ⟨hmem, hpcl⟩, getCluster_eq_some hd |>.2 ⟨hmem, hqcl⟩]

/-- **`verify` accepts exactly the legal partitions.** -/
theorem verify_eq_ok {g : Graph S C K} : g.verify = .ok true ↔ g.Legal g.clusters := by
  rw [verify, bind_eq_ok]
  simp only [seq_eq_ok, verifyLoop_eq_ok, assert_eq_ok, decide_eq_true_eq]
  have hunion := toSet_unionAll (u := .newCluster []) (l := g.clusters)
  rw [toSet_newCluster_nil, Set.empty_union] at hunion
  have hsub := sub_sub_iff (g := g) (u := unionAll (.newCluster []) g.clusters)
  rw [hunion, and_comm] at hsub
  rw [toSet_newCluster_nil, admits_iff]
  constructor
  · rintro ⟨_, ⟨⟨-, hd, -⟩, rfl⟩, h₁, h₂, hcon, -⟩
    exact (checkConnectors_eq_ok hd (hsub.1 ⟨h₁, h₂⟩)).1 hcon
  · intro hl
    obtain ⟨h₁, h₂⟩ := hsub.2 hl.covers
    refine ⟨_, ⟨⟨fun _ _ ↦ Set.empty_disjoint _, hl.disjoint, ?_⟩, rfl⟩, h₁, h₂,
      (checkConnectors_eq_ok hl.disjoint hl.covers).2 hl, rfl⟩
    exact fun _ _ _ _ _ h ↦ h.elim

/-- **`part` accepts exactly the legal partitions, and `verify` agrees with it**, as far as the
partition decides: a bind function that raises an error makes `part` fail, and `BindsReturn` is
the assumption that none does. -/
theorem part_and_verify (g : Graph S C K) (h : g.OutputsMatch) (heap : Nat → Table S)
    (args : List (Arg S)) :
    ((∃ g', g.part heap args = .ok g') ↔ g.BindsReturn ∧ g.Legal (resulting heap 0 args)) ∧
    ∀ g', g.part heap args = .ok g' →
      (∀ s ∈ g.stages, ∃ cl ∈ resulting heap 0 args, g'.getCluster s = some cl ∧ s ∈ cl.table ∧
        ∀ d ∈ resulting heap 0 args, s ∈ d.table → d = cl) ∧ g'.verify = .ok true := by
  constructor
  · simp only [part_eq_ok h]
    exact ⟨fun ⟨_, hb, hl, _⟩ ↦ ⟨hb, hl⟩, fun ⟨hb, hl⟩ ↦ ⟨_, hb, hl, rfl⟩⟩
  · intro g' hg'
    obtain ⟨-, hl, rfl⟩ := (part_eq_ok h).1 hg'
    have hl' : Legal { g with cluster := some (resulting heap 0 args) }
        (clusters { g with cluster := some (resulting heap 0 args) }) := IsPartition.dedup hl
    refine ⟨?_, verify_eq_ok.2 hl'⟩
    intro s hs
    obtain ⟨cl, ⟨hmem, hcl⟩, huniq⟩ := hl.existsUnique hs
    exact ⟨cl, hmem, (getCluster_eq_some hl'.disjoint).2 ⟨mem_dedup.2 hmem, hcl⟩, hcl,
      fun d hd hsd ↦ huniq d ⟨hd, hsd⟩⟩

/-- A pipeline of three stages: a local connector, then a decoupled one. -/
def pipeline : Graph Nat Nat Nat where
  conns := [0, 1]
  conn c := if c = 0 then ⟨"local", some 1, 2⟩ else ⟨"decoupled", some 2, 3⟩
  outputs s := if s = 1 then [(1, 0)] else if s = 2 then [(1, 1)] else []
  cluster := none
  tostring s := "stage " ++ toString s
  name s := "stage " ++ toString s
  bind _ := none

theorem pipeline_outputsMatch : pipeline.OutputsMatch := by
  intro s c
  by_cases h₁ : s = 1
  · subst h₁
    by_cases hc : c = 0 <;> simp [pipeline, hc]
  · by_cases h₂ : s = 2
    · subst h₂
      by_cases hc : c = 0 <;> simp [pipeline, hc]
    · by_cases hc : c = 0 <;> simp [pipeline, hc, h₁, h₂, Ne.symm h₁, Ne.symm h₂]

theorem part_and_verify_pipeline :
    ∃ g', pipeline.part (fun _ ↦ .empty) [.list [1, 2], .stage 3] = .ok g' ∧
      g'.verify = .ok true := by
  obtain ⟨g', hg'⟩ : ∃ g', pipeline.part (fun _ ↦ .empty) [.list [1, 2], .stage 3] = .ok g' :=
    ⟨_, rfl⟩
  have h := part_and_verify pipeline pipeline_outputsMatch (fun _ ↦ .empty) [.list [1, 2], .stage 3]
  exact ⟨g', hg', (h.2 g' hg').2⟩

-- the local connector would cross clusters
example : ∃ msg, pipeline.part (fun _ ↦ .empty) [.stage 1, .list [2, 3]] = .error msg := ⟨_, rfl⟩

end Leda.Graph
