import Leda.Graph.Ship

/-!
# A graph that grows between two runs

The tables of ids stay in the graph that was compiled.  When the graph is run again,
`build_graph_representation` finds them and takes the ids from there, as it does with a
graph that was shipped.  But the graph may have grown meanwhile (`Grown`), and what it
has grown by has no id: `lua_gettable` gives `nil`, and `lua_tointeger` makes `0` of it.

So a new object is written into slot `0`, over the object that has this id, and the
last slots stay `NULL`, since the arrays are as long as the graph has objects now.  The
build does not notice; it returns such arrays for every graph that can be marshalled
(`rebuild_eq_ok`).  The four tables fail one by one: an array is complete exactly if no
object was added to it, or if it had none before and has one now (`HarmlessGrowth`),
whose id is then `0` rightly (`rebuild_complete_iff`).
-/

namespace Leda.Graph

open Leda.Lib Leda.Lua
open List hiding Disjoint disjoint_comm

variable {S C P : Type} [DecidableEq S] [DecidableEq C] [DecidableEq P]

/-- **A compiled graph that has grown.**  It has the objects that it had and carries the
tables of ids.  A cluster is the object it was, but may contain more stages: `grow` gives
its present contents. -/
structure Grown (g : Program S C P) (t : Tables S C P) (grow : Cluster S → Cluster S)
    (g' : Program S C P) : Prop where
  processes : ∀ d ∈ g.processes, d ∈ g'.processes
  clusters : ∀ cl ∈ g.graph.clusters, grow cl ∈ g'.graph.clusters
  stages : ∀ s ∈ g.graph.stages, s ∈ g'.graph.stages
  connectors : ∀ c ∈ g.connectors, c ∈ g'.connectors
  ref : ∀ cl ∈ g.graph.clusters, (grow cl).ref = cl.ref
  refs : (g.graph.clusters.map Cluster.ref).Nodup
  processesid : g'.processesid = some t.processesid
  clustersid : g'.clustersid = some (t.clustersid.map (Prod.map grow id))
  stagesid : g'.stagesid = some t.stagesid
  connectorsid : g'.connectorsid = some t.connectorsid

/-- The arrays have a slot for each object and an object for each slot. -/
structure Intact (g : Program S C P) (t : Tables S C P) (data : GraphData) : Prop where
  processes : Complete t.processesid g.processes data.d
  clusters : Complete t.clustersid g.graph.clusters data.cl
  stages : Complete t.stagesid g.graph.stages data.s
  connectors : Complete t.connectorsid g.connectors data.c

/-- Nothing was added that the arrays have no slot for. -/
structure GrownHarmlessly (g : Program S C P) (grow : Cluster S → Cluster S)
    (g' : Program S C P) : Prop where
  processes : HarmlessGrowth g.processes g'.processes
  clusters : HarmlessGrowth (g.graph.clusters.map grow) g'.graph.clusters
  stages : HarmlessGrowth g.graph.stages g'.graph.stages
  connectors : HarmlessGrowth g.connectors g'.connectors

section Built

variable {fmt : BitVec 64 → List UInt8} {m : Machine} {host : List UInt8} {port : Int}
variable {g : Program S C P} {t : Tables S C P} {data : GraphData}

/-- A build that returned has made tables of the objects of the graph. -/
structure Numbered (g : Program S C P) (t : Tables S C P) : Prop where
  processes : Numbers t.processesid g.processes
  clusters : Numbers t.clustersid g.graph.clusters
  stages : Numbers t.stagesid g.graph.stages
  connectors : Numbers t.connectorsid g.connectors

theorem numbered_of_build {v : g.Traversal} (hk : Known g)
    (h : g.build fmt m host port v = .ok (t, data)) : Numbered g t := by
  obtain ⟨⟨processesid, d⟩, hd, h⟩ := Xfer.bind_eq_ok.1 h
  obtain ⟨⟨clustersid, cl⟩, hcl, h⟩ := Xfer.bind_eq_ok.1 h
  obtain ⟨⟨stagesid, s⟩, hs, h⟩ := Xfer.bind_eq_ok.1 h
  obtain ⟨⟨connectorsid, c⟩, hc, h⟩ := Xfer.bind_eq_ok.1 h
  obtain ⟨s', -, h⟩ := Xfer.bind_eq_ok.1 h
  cases h
  constructor
  · exact numbers_of_fill hd hk.processesid v.processes_perm (nodup_dedup _)
  · exact numbers_of_fill hcl hk.clustersid v.clusters_perm (nodup_dedup _)
  · exact numbers_of_fill hs hk.stagesid v.stages_perm (nodup_dedup _)
  · exact numbers_of_fill hc hk.connectorsid v.connectors_perm (nodup_dedup _)

end Built

namespace Grown

variable {fmt : BitVec 64 → List UInt8} {m : Machine} {host : List UInt8} {port : Int}
variable {g g' : Program S C P} {t t' : Tables S C P} {grow : Cluster S → Cluster S}
variable {data data₀ : GraphData}

omit [DecidableEq C] [DecidableEq P] in
theorem nodup_map_grow (hr : (g.graph.clusters.map Cluster.ref).Nodup)
    (hg : ∀ cl ∈ g.graph.clusters, (grow cl).ref = cl.ref) :
    (g.graph.clusters.map grow).Nodup := by
  have href : (g.graph.clusters.map grow).map Cluster.ref = g.graph.clusters.map Cluster.ref := by
    rw [map_map]
    exact map_congr_left hg
  refine Nodup.of_map Cluster.ref ?_
  rwa [href]

/-- The table of the clusters numbers the clusters that have grown. -/
theorem numbers_clusters (h : Grown g t grow g') (hn : Numbers t.clustersid g.graph.clusters) :
    Numbers (t.clustersid.map (Prod.map grow id)) (g.graph.clusters.map grow) :=
  hn.map (nodup_map_grow h.refs h.ref) (.refl _)

theorem subset_clusters (h : Grown g t grow g') :
    ∀ cl ∈ g.graph.clusters.map grow, cl ∈ g'.graph.clusters := by
  intro cl hcl
  obtain ⟨cl', hcl', rfl⟩ := mem_map.1 hcl
  exact h.clusters cl' hcl'

/-- The tables that the grown graph has. -/
def tables (t : Tables S C P) (grow : Cluster S → Cluster S) : Tables S C P :=
  { t with clustersid := t.clustersid.map (Prod.map grow id) }

/-- **The build returns**, and its arrays are complete if the old tables tell the objects
apart. -/
theorem rebuild_eq_ok (h : Grown g t grow g') (hn : Numbered g t) (hm : Marshals m g')
    (v : g'.Traversal) :
    ∃ data, g'.build fmt m host port v = .ok (tables t grow, data) ∧
      (Intact g' (tables t grow) data ↔ GrownHarmlessly g grow g') := by
  have hncl := h.numbers_clusters hn.clusters
  obtain ⟨d, hd, hdl, hds⟩ := fill_grown g'.processEntry hn.processes h.processes
    v.processes_perm fun _ _ ↦ ⟨_, rfl⟩
  obtain ⟨cl, hcl, hcll, hcls⟩ := fill_grown (g'.clusterEntry fmt host port t.processesid) hncl
    h.subset_clusters v.clusters_perm fun _ _ ↦ ⟨_, rfl⟩
  obtain ⟨s, hs, hsl, hss⟩ := fill_grown (g'.stageEntry fmt m (tables t grow).clustersid) hn.stages
    h.stages v.stages_perm fun _ ↦ stageEntry_isOk hm _
  obtain ⟨c, hc, hcon, hcs⟩ := fill_grown (g'.connectorEntry fmt t.stagesid) hn.connectors
    h.connectors v.connectors_perm fun _ _ ↦ ⟨_, rfl⟩
  -- every stage finds the slot that it, or another one with its id, was written to
  have hslot : ∀ a ∈ v.stages, t.stagesid.get a < s.length ∧ s[t.stagesid.get a]? ≠ some none := by
    intro a ha
    have ha := v.stages_perm.mem_iff.1 ha
    have hlt : t.stagesid.get a < s.length := by
      rw [hsl]
      exact hn.stages.get_lt_of_mem h.stages ha
    exact ⟨hlt, fun hnone ↦ (hss _ hlt).1 hnone a ha rfl⟩
  obtain ⟨s', hs', hsl', hss'⟩ :=
    revisit_slots (f := Program.setOutput v.outputs t.connectorsid) hslot
  refine ⟨⟨tolstring fmt g'.title, d, cl, s', c⟩, ?_, ?_⟩
  · simp only [Program.build, h.processesid, h.clustersid, h.stagesid, h.connectorsid, hd, hcl,
      Xfer.ok_bind]
    rw [show t.clustersid.map (Prod.map grow id) = (tables t grow).clustersid from rfl]
    simp only [hs, hc, hs', Xfer.ok_bind]
    rfl
  · have hd' : Complete t.processesid g'.processes d ↔ _ :=
      hn.processes.complete_iff h.processes (nodup_dedup _) hdl hds
    have hcl' : Complete (tables t grow).clustersid g'.graph.clusters cl ↔ _ :=
      hncl.complete_iff h.subset_clusters (nodup_dedup _) hcll hcls
    have hs' : Complete t.stagesid g'.graph.stages s' ↔ _ :=
      hn.stages.complete_iff h.stages (nodup_dedup _) (hsl'.trans hsl)
        fun i hi ↦ (hss' i).trans (hss i (hsl' ▸ hi))
    have hc' : Complete t.connectorsid g'.connectors c ↔ _ :=
      hn.connectors.complete_iff h.connectors (nodup_dedup _) hcon hcs
    constructor
    · intro hi
      exact ⟨hd'.1 hi.processes, hcl'.1 hi.clusters, hs'.1 hi.stages, hc'.1 hi.connectors⟩
    · intro hh
      exact ⟨hd'.2 hh.processes, hcl'.2 hh.clusters, hs'.2 hh.stages, hc'.2 hh.connectors⟩

/-- A build that returns has marshalled every stage. -/
theorem marshals_of_build {v : g.Traversal} {ids : Ids S} (hk : g.stagesid = some ids)
    (hb : g.build fmt m host port v = .ok (t', data)) : Marshals m g := by
  obtain ⟨_, -, hb⟩ := Xfer.bind_eq_ok.1 hb
  obtain ⟨_, -, hb⟩ := Xfer.bind_eq_ok.1 hb
  obtain ⟨_, hs, -⟩ := Xfer.bind_eq_ok.1 hb
  rw [hk] at hs
  obtain ⟨arr, hr, -⟩ := Xfer.bind_eq_ok.1 hs
  intro s hs
  obtain ⟨e, he⟩ := entry_of_fillKnown hr s (v.stages_perm.mem_iff.2 hs)
  obtain ⟨b, hb, -⟩ := Xfer.bind_eq_ok.1 he
  exact ⟨b, hb⟩

end Grown

/-- **A graph that was compiled and has grown is compiled completely exactly if its stages
can be marshalled and it has grown harmlessly.** -/
theorem rebuild_complete_iff {fmt fmt' : BitVec 64 → List UInt8} {m m' : Machine}
    {host host' : List UInt8} {port port' : Int} {g g' : Program S C P} {t : Tables S C P}
    {data : GraphData} {grow : Cluster S → Cluster S} {v : g.Traversal} (hk : Known g)
    (hb : g.build fmt m host port v = .ok (t, data)) (h : Grown g t grow g')
    (v' : g'.Traversal) :
    (∃ t' data', g'.build fmt' m' host' port' v' = .ok (t', data') ∧ Intact g' t' data') ↔
      Marshals m' g' ∧ GrownHarmlessly g grow g' := by
  have hn := numbered_of_build hk hb
  constructor
  · rintro ⟨t', data', hb', hi⟩
    have hm := Grown.marshals_of_build h.stagesid hb'
    obtain ⟨data'', hb'', hiff⟩ := h.rebuild_eq_ok hn hm v'
    obtain ⟨rfl, rfl⟩ := Prod.mk.inj (Xfer.ok.inj (hb'.symm.trans hb''))
    exact ⟨hm, hiff.1 hi⟩
  · rintro ⟨hm, hh⟩
    obtain ⟨data', hb', hiff⟩ := h.rebuild_eq_ok hn hm v'
    exact ⟨_, data', hb', hiff.2 hh⟩

/-! ## A stage that was added -/

/-- `echo` after it was compiled, with a second stage that the first one sends to. -/
def duet (t : Tables Nat Nat Nat) : Program Nat Nat Nat :=
  { echo with
    graph := { echo.graph with
      conns := [0, 1]
      conn c := ⟨"decoupled", some 0, c⟩
      outputs s := if s = 0 then [(.string [111], 0), (.string [112], 1)] else []
      cluster := some [⟨.given 0, .newCluster [0, 1]⟩] }
    heap := [.table { entries := [(str "name", str "echo"), (str "handler", .object 2)] },
      .table { entries := [(str "name", str "sink"), (str "handler", .object 2)] },
      .function ⟨.lua, [27], []⟩]
    port c := if c = 0 then .string [111] else .string [112]
    processesid := some t.processesid
    clustersid := some (t.clustersid.map (Prod.map (fun _ ↦ ⟨.given 0, .newCluster [0, 1]⟩) id))
    stagesid := some t.stagesid
    connectorsid := some t.connectorsid }

/-- The only cluster of `duet`. -/
def both : Cluster Nat → Cluster Nat := fun _ ↦ ⟨.given 0, .newCluster [0, 1]⟩

theorem echo_grown (t : Tables Nat Nat Nat) : Grown echo t both (duet t) where
  processes _ h := h
  clusters cl _ := by
    have hcl : (duet t).graph.clusters = [both cl] := rfl
    rw [hcl]
    exact mem_singleton_self _
  stages := by
    have hs : (duet t).graph.stages = [0, 1] := rfl
    rw [hs]
    decide
  connectors := by
    have hc : (duet t).connectors = [0, 1] := rfl
    rw [hc]
    decide
  ref := by decide
  refs := by decide
  processesid := rfl
  clustersid := rfl
  stagesid := rfl
  connectorsid := rfl

theorem duet_marshals (t : Tables Nat Nat Nat) : Marshals machine (duet t) := by
  intro s hs
  have hs01 : s = 0 ∨ s = 1 := by
    have hmem : s ∈ [0, 1] := hs
    simpa using hmem
  rcases hs01 with rfl | rfl
  · exact ⟨_, rfl⟩
  · exact ⟨_, rfl⟩

theorem rebuild_complete_iff_duet :
    ∃ t data, echo.build (fun _ ↦ []) machine [49] 0 (listed echo) = .ok (t, data) ∧
      ((∃ t' data', (duet t).build (fun _ ↦ []) machine [49] 0 (listed (duet t)) =
          .ok (t', data') ∧ Intact (duet t) t' data') ↔
        Marshals machine (duet t) ∧ GrownHarmlessly echo both (duet t)) := by
  obtain ⟨t, data, hb⟩ : ∃ t data,
      echo.build (fun _ ↦ []) machine [49] 0 (listed echo) = .ok (t, data) := ⟨_, _, rfl⟩
  exact ⟨t, data, hb, rebuild_complete_iff echo_fresh.known hb (echo_grown t) (listed _)⟩

/-- **The array of the stages is not complete** after one stage was added. -/
theorem not_rebuild_complete :
    echo.Fresh ∧ ∃ t data, echo.build (fun _ ↦ []) machine [49] 0 (listed echo) = .ok (t, data) ∧
      Grown echo t both (duet t) ∧ (duet t).graph.verify = .ok true ∧
      Marshals machine (duet t) ∧
      ¬ ∃ t' data', (duet t).build (fun _ ↦ []) machine [49] 0 (listed (duet t)) = .ok (t', data') ∧
        Intact (duet t) t' data' := by
  refine ⟨echo_fresh, _, _, rfl, echo_grown _, by decide, duet_marshals _, ?_⟩
  rintro ⟨t', data', hb, hi⟩
  cases hb
  have hfull := hi.stages.full
  revert hfull
  decide

end Leda.Graph
