import Leda.Graph.Ship
import Leda.Lua.Table

/-!
# Sending a graph and keeping it

`send_graph` borrows the graph of the program that is running.  `prepare_graph` saves
the pairs of every stage and overwrites some of them, the graph is encoded, and
`restore_graph` writes the saved pairs back.  The graph is meant to be as it was.

It need not be.  The pairs that are written back are the pairs that were there, so a
field that `prepare_graph` adds to a stage stays: `pending`, if the stage had none, and
for a stage of a cluster of another process `handler` and `init`, of which the second
is optional.  And an error of the encoder leaves the function before anything is written
back; so does a stage that is in no cluster.

`getField_prepareStage` and `getField_restoreStage` say what the two loops do to one
field, and `getField_sendGraph` what is left of both in the end.  From it
`sendGraph_unchanged_iff` tells exactly when the graph is unchanged.
-/

namespace Leda.Graph

open Leda.Lua
open List hiding Disjoint disjoint_comm

variable {S C P : Type}

/-! ## One field of one table -/

/-- `t[k]` for the table at an address. -/
def getField (h : Heap) (a : Nat) (k : Value) : Value := getEntry (entriesAt h a) k

/-- There is a table at the address. -/
def IsTable (h : Heap) (a : Nat) : Prop := ∃ t, h[a]? = some (.table t)

section Fields

variable {h : Heap} {a b : Nat} {k k' v : Value} {r : List (Value × Value)}

theorem IsTable.lt (ha : IsTable h a) : a < h.length := by
  obtain ⟨t, ht⟩ := ha
  exact (List.getElem?_eq_some_iff.1 ht).1

theorem length_setKey : (setKey h a k v).length = h.length := by
  unfold setKey
  split
  · exact length_set
  · rfl

theorem IsTable.setKey (hb : IsTable h b) : IsTable (setKey h a k v) b := by
  obtain ⟨t, ht⟩ := hb
  unfold Graph.setKey
  split
  · by_cases hab : a = b
    · subst hab
      exact ⟨_, getElem?_set_self (List.getElem?_eq_some_iff.1 ht).1⟩
    · exact ⟨t, by rwa [getElem?_set_ne hab]⟩
  · exact ⟨t, ht⟩

theorem IsTable.append (ha : IsTable h a) : IsTable (h ++ [.table {}]) a := by
  have hlt := ha.lt
  obtain ⟨t, ht⟩ := ha
  exact ⟨t, by rwa [getElem?_append_left hlt]⟩

theorem getField_setKey (ha : IsTable h a) :
    getField (setKey h a k v) b k' = if b = a ∧ k' = k then v else getField h b k' := by
  obtain ⟨t, ht⟩ := ha
  have hset : Graph.setKey h a k v =
      h.set a (.table { t with entries := setEntry t.entries k v }) := by
    rw [Graph.setKey, ht]
  by_cases hb : b = a
  · subst hb
    have hlt := (List.getElem?_eq_some_iff.1 ht).1
    have hnew : entriesAt (Graph.setKey h b k v) b = setEntry t.entries k v := by
      rw [hset, entriesAt, getElem?_set_self hlt]
    have hold : entriesAt h b = t.entries := by rw [entriesAt, ht]
    rw [getField, getField, hnew, hold, getEntry_setEntry]
    simp
  · have hother : entriesAt (Graph.setKey h a k v) b = entriesAt h b := by
      rw [hset, entriesAt, entriesAt, getElem?_set_ne (Ne.symm hb)]
    rw [getField, hother, if_neg fun hba ↦ hb hba.1, getField]

theorem getField_append_empty : getField (h ++ [.table {}]) b k = getField h b k := by
  rw [getField, entriesAt_append_empty, getField]

/-- Setting a field to what it is changes no field. -/
theorem getField_setKey_same (ha : IsTable h a) (hv : v = getField h a k) :
    getField (setKey h a k v) b k' = getField h b k' := by
  rw [getField_setKey ha]
  split
  · rename_i hbk
    obtain ⟨rfl, rfl⟩ := hbk
    exact hv
  · rfl

/-- Setting a field of another table. -/
theorem entriesAt_setKey_ne (hb : b ≠ a) : entriesAt (setKey h a k v) b = entriesAt h b :=
  entriesAt_setKey.resolve_right fun hba ↦ hb hba.1

/-- A loop that sets fields of a table leaves tables. -/
theorem IsTable.foldl {α : Type} {f : α → Value × Value} {l : List α} (hb : IsTable h b) :
    IsTable (l.foldl (fun h x ↦ Graph.setKey h a (f x).1 (f x).2) h) b := by
  induction l generalizing h with
  | nil => exact hb
  | cons x l ih => exact ih hb.setKey

theorem length_foldl_setKey {α : Type} {f : α → Value × Value} {l : List α} :
    (l.foldl (fun h x ↦ setKey h a (f x).1 (f x).2) h).length = h.length := by
  induction l generalizing h with
  | nil => rfl
  | cons x l ih => exact ih.trans length_setKey

/-- It leaves other tables as they are. -/
theorem entriesAt_foldl_ne {α : Type} {f : α → Value × Value} {l : List α} (hb : b ≠ a) :
    entriesAt (l.foldl (fun h x ↦ setKey h a (f x).1 (f x).2) h) b = entriesAt h b := by
  induction l generalizing h with
  | nil => rfl
  | cons x l ih => exact ih.trans (entriesAt_setKey_ne hb)

/-- It leaves the fields as they are that it sets to what they were. -/
theorem getField_foldl_same {α : Type} {f : α → Value × Value} {l : List α} (ha : IsTable h a)
    (hf : ∀ x ∈ l, (f x).2 = getField h a (f x).1) :
    getField (l.foldl (fun h x ↦ setKey h a (f x).1 (f x).2) h) b k = getField h b k := by
  induction l generalizing h with
  | nil => rfl
  | cons x l ih =>
      have hx := hf x mem_cons_self
      refine (ih ha.setKey fun y hy ↦ ?_).trans (getField_setKey_same ha hx)
      rw [getField_setKey_same ha hx]
      exact hf y (mem_cons_of_mem _ hy)

/-! ## What is done to a stage -/

/-- What `prepare_graph` does to a stage before it asks for the cluster. -/
def clearStage (h : Heap) (a : Nat) : Heap :=
  let t := entriesAt h a
  let h := setKey h a (str "name") (getEntry t (str "name"))
  let h := setKey (h ++ [.table {}]) a (str "pending") (.object h.length)
  ["stagesid", "connectorsid", "clustersid"].foldl
    (fun h k ↦ setKey h a (str k) (getEntry t (str k))) h

theorem prepareStage_eq {isLocal : Bool} : prepareStage isLocal h a =
    ["handler", "init"].foldl (fun h' k ↦ setKey h' a (str k)
      (if isLocal then getEntry (entriesAt h a) (str k) else str "")) (clearStage h a) := rfl

theorem IsTable.clearStage (hb : IsTable h b) : IsTable (Graph.clearStage h a) b :=
  IsTable.foldl (f := fun n ↦ (str n, getEntry (entriesAt h a) (str n))) hb.setKey.append.setKey

theorem IsTable.prepareStage {isLocal : Bool} (hb : IsTable h b) :
    IsTable (Graph.prepareStage isLocal h a) b := by
  rw [prepareStage_eq]
  exact IsTable.foldl (f := fun n ↦ (str n,
    if isLocal then getEntry (entriesAt h a) (str n) else str "")) hb.clearStage

/-- Other stages stay as they are. -/
theorem entriesAt_clearStage_ne (hb : b ≠ a) : entriesAt (clearStage h a) b = entriesAt h b := by
  refine (entriesAt_foldl_ne
    (f := fun n ↦ (str n, getEntry (entriesAt h a) (str n))) hb).trans ?_
  rw [entriesAt_setKey_ne hb, entriesAt_append_empty, entriesAt_setKey_ne hb]

theorem entriesAt_prepareStage_ne {isLocal : Bool} (hb : b ≠ a) :
    entriesAt (prepareStage isLocal h a) b = entriesAt h b := by
  rw [prepareStage_eq]
  refine (entriesAt_foldl_ne (f := fun n ↦ (str n,
    if isLocal then getEntry (entriesAt h a) (str n) else str "")) hb).trans ?_
  exact entriesAt_clearStage_ne hb

/-- The stage has a new table of pending events. -/
theorem getField_clearStage (ha : IsTable h a) : getField (clearStage h a) a k =
    if k = str "pending" then .object h.length else getField h a k := by
  have hname : ∀ b k', getField (setKey h a (str "name")
      (getEntry (entriesAt h a) (str "name"))) b k' = getField h b k' :=
    fun b k' ↦ getField_setKey_same ha rfl
  have hpending : ∀ k', getField (setKey (setKey h a (str "name")
      (getEntry (entriesAt h a) (str "name")) ++ [.table {}]) a (str "pending")
      (.object (setKey h a (str "name") (getEntry (entriesAt h a) (str "name"))).length)) a k' =
      if k' = str "pending" then .object h.length else getField h a k' := by
    intro k'
    rw [getField_setKey ha.setKey.append, getField_append_empty, hname, length_setKey]
    simp
  refine (getField_foldl_same (f := fun n ↦ (str n, getEntry (entriesAt h a) (str n)))
    ha.setKey.append.setKey ?_).trans (hpending k)
  intro n hn
  have hne : str n ≠ str "pending" := by
    revert n
    decide
  rw [hpending, if_neg hne, getField]

theorem length_clearStage : (clearStage h a).length = h.length + 1 := by
  refine (length_foldl_setKey (f := fun n ↦ (str n, getEntry (entriesAt h a) (str n)))).trans ?_
  rw [length_setKey, length_append, length_setKey, length_singleton]

theorem length_prepareStage {isLocal : Bool} :
    (prepareStage isLocal h a).length = h.length + 1 := by
  rw [prepareStage_eq]
  exact (length_foldl_setKey (f := fun n ↦ (str n,
    if isLocal then getEntry (entriesAt h a) (str n) else str ""))).trans length_clearStage

/-- **What `prepare_graph` does to a field of a stage.** -/
theorem getField_prepareStage {isLocal : Bool} (ha : IsTable h a) :
    getField (prepareStage isLocal h a) a k =
      if k = str "pending" then .object h.length
      else if isLocal = false ∧ (k = str "handler" ∨ k = str "init") then str ""
      else getField h a k := by
  have hhandler : str "handler" ≠ str "pending" := by decide
  have hinit : str "init" ≠ str "pending" := by decide
  rw [prepareStage_eq]
  cases isLocal with
  | true =>
      rw [if_neg (by simp : ¬ (true = false ∧ _)), ← getField_clearStage ha]
      refine getField_foldl_same (f := fun n ↦ (str n, getEntry (entriesAt h a) (str n)))
        ha.clearStage fun n hn ↦ ?_
      have hne : str n ≠ str "pending" := by
        revert n
        decide
      rw [getField_clearStage ha, if_neg hne, getField]
  | false =>
      simp only [foldl_cons, foldl_nil, Bool.false_eq_true, if_false]
      rw [getField_setKey ha.clearStage.setKey, getField_setKey ha.clearStage,
        getField_clearStage ha]
      by_cases hp : k = str "pending"
      · subst hp
        simp [hhandler.symm, hinit.symm]
      · by_cases hk : k = str "handler"
        · subst hk
          simp [hhandler]
        · simp [hp, hk]

/-- What `restore_graph` does to a field of a stage: a saved one is as it was saved. -/
theorem getField_restoreStage (ha : IsTable h a) : getField (restoreStage h a r) a k =
    if k ∈ r.map Prod.fst then getEntry r k else getField h a k := by
  suffices hl : ∀ l : List (Value × Value),
      getField (l.foldl (fun h e ↦ setKey h a e.1 (getEntry r e.1)) h) a k =
        if k ∈ l.map Prod.fst then getEntry r k else getField h a k from hl r
  intro l
  induction l generalizing h with
  | nil => simp
  | cons e l ih =>
      rw [foldl_cons, ih ha.setKey, getField_setKey ha, map_cons]
      by_cases hk : k = e.1
      · subst hk
        simp
      · simp only [hk, and_false, if_false, mem_cons, false_or]

theorem IsTable.restoreStage (hb : IsTable h b) : IsTable (Graph.restoreStage h a r) b :=
  IsTable.foldl (f := fun e : Value × Value ↦ (e.1, getEntry r e.1)) hb

theorem entriesAt_restoreStage_ne (hb : b ≠ a) :
    entriesAt (restoreStage h a r) b = entriesAt h b :=
  entriesAt_foldl_ne (f := fun e : Value × Value ↦ (e.1, getEntry r e.1)) hb

end Fields

/-! ## The loops over the stages -/

/-- The stages with their pairs, as `prepare_graph` returns them. -/
abbrev Saved (S : Type) := List (S × List (Value × Value))

/-- The bytes of a string, as characters. -/
def text (s : List UInt8) : String := String.ofList (s.map fun b ↦ Char.ofNat b.toNat)

/-- What `send_graph` meets and does not control. -/
structure Sending (g : Program S C P) [DecidableEq S] where
  /-- The order in which `pairs` visits the stages. -/
  stages : List S
  stages_perm : stages.Perm g.graph.stages
  /-- The order in which it visits what was saved. -/
  saved : Saved S → Saved S
  saved_perm : ∀ t, (saved t).Perm t
  /-- How `socket.connect` ends. -/
  connected : Except String Unit
  /-- How `kernel.encode` ends. -/
  encoded : Except String (List UInt8)
  /-- How `client:receive` ends. -/
  response : Except String String

namespace Program

/-- `restore_graph`, visiting what was saved in the order of the list. -/
def restoreGraph (g : Program S C P) (t : Saved S) (h : Heap) : Heap :=
  t.foldl (fun h sr ↦ restoreStage h (g.table sr.1) sr.2) h

variable [DecidableEq S]

/-- `prepare_graph` on the stages in the order of the list. -/
def prepareGraph (g : Program S C P) (d : P) : List S → Heap → Heap × Except String (Saved S)
  | [], h => (h, .ok [])
  | s :: ss, h =>
    let r := entriesAt h (g.table s)
    match g.graph.getCluster s with
    | none => (clearStage h (g.table s), .error "attempt to index local 'cl' (a nil value)")
    | some cl =>
      let isLocal := g.isLocal cl (g.process d).host (g.process d).port
      let (h, t) := g.prepareGraph d ss (prepareStage isLocal h (g.table s))
      (h, t.map fun t ↦ (s, r) :: t)

/-- `send_graph`: the objects as it leaves them, and how it ends. -/
def sendGraph (g : Program S C P) (d : P) (x : Sending g) (h : Heap) :
    Heap × Except String Unit :=
  let address := "'" ++ text (g.process d).host ++ ":" ++ toString (g.process d).port ++ "': "
  match x.connected with
  | .error err => (h, .error ("Error connecting to " ++ address ++ err))
  | .ok _ =>
    match g.prepareGraph d x.stages h with
    | (h, .error err) => (h, .error err)
    | (h, .ok t) =>
      match x.encoded with
      | .error err => (h, .error err)
      | .ok _ =>
        let h := g.restoreGraph (x.saved t) h
        match x.response with
        | .error err => (h, .error err)
        | .ok response =>
          (h, assert (response = "ACCEPTED") ("Error sending graph to " ++ address ++ response))

/-- The stages are tables, each one its own. -/
structure StageObjects (g : Program S C P) (h : Heap) : Prop where
  heap : WellFormedHeap h
  isTable : ∀ s ∈ g.graph.stages, IsTable h (g.table s)
  table_inj : ∀ s ∈ g.graph.stages, ∀ r ∈ g.graph.stages, g.table s = g.table r → s = r

section Loops

variable {g : Program S C P} {d : P} {h : Heap} {ss : List S} {s : S} {k : Value} {b : Nat}

/-- The loop over the stages, one step. -/
theorem prepareGraph_cons {cl : Cluster S} (hcl : g.graph.getCluster s = some cl) :
    (g.prepareGraph d (s :: ss) h).1 = (g.prepareGraph d ss (prepareStage
      (g.isLocal cl (g.process d).host (g.process d).port) h (g.table s))).1 := by
  rw [prepareGraph, hcl]

/-- Tables that are no stages stay as they are. -/
theorem entriesAt_prepareGraph_ne (hb : ∀ s ∈ ss, g.table s ≠ b) :
    entriesAt (g.prepareGraph d ss h).1 b = entriesAt h b := by
  induction ss generalizing h with
  | nil => rfl
  | cons s ss ih =>
      have hbs : b ≠ g.table s := Ne.symm (hb s mem_cons_self)
      cases hcl : g.graph.getCluster s with
      | none =>
          rw [prepareGraph, hcl]
          exact entriesAt_clearStage_ne hbs
      | some cl =>
          rw [prepareGraph_cons hcl, ih fun r hr ↦ hb r (mem_cons_of_mem _ hr)]
          exact entriesAt_prepareStage_ne hbs

theorem isTable_prepareGraph (hb : IsTable h b) : IsTable (g.prepareGraph d ss h).1 b := by
  induction ss generalizing h with
  | nil => exact hb
  | cons s ss ih =>
      cases hcl : g.graph.getCluster s with
      | none =>
          rw [prepareGraph, hcl]
          exact hb.clearStage
      | some cl =>
          rw [prepareGraph_cons hcl]
          exact ih hb.prepareStage

/-- However the loop ends, the first stage has lost its pending events. -/
theorem getField_prepareGraph_head (d : P) (ss : List S) (hs : IsTable h (g.table s))
    (hne : ∀ r ∈ ss, g.table r ≠ g.table s) :
    getField (g.prepareGraph d (s :: ss) h).1 (g.table s) (str "pending") =
      .object h.length := by
  cases hcl : g.graph.getCluster s with
  | none =>
      rw [prepareGraph, hcl]
      exact (getField_clearStage hs).trans (if_pos rfl)
  | some cl =>
      rw [prepareGraph_cons hcl, getField, entriesAt_prepareGraph_ne hne]
      exact (getField_prepareStage hs).trans (if_pos rfl)

/-- What `prepare_graph` has done to a stage when it returns: its cluster was found and its
pairs were saved, and its fields are the ones for this process. -/
structure Prepared (g : Program S C P) (d : P) (s : S) (t : Saved S) (h h' : Heap)
    (cl : Cluster S) (n : Nat) : Prop where
  cluster : g.graph.getCluster s = some cl
  saved : (s, entriesAt h (g.table s)) ∈ t
  fresh : h.length ≤ n
  field : ∀ k, getField h' (g.table s) k =
    if k = str "pending" then .object n
    else if g.isLocal cl (g.process d).host (g.process d).port = false ∧
        (k = str "handler" ∨ k = str "init") then str ""
    else getField h (g.table s) k

/-- **When `prepare_graph` returns, every stage is prepared.** -/
theorem prepared_of_prepareGraph (hn : (ss.map g.table).Nodup)
    (ht : ∀ s ∈ ss, IsTable h (g.table s)) {h' : Heap} {t : Saved S}
    (he : g.prepareGraph d ss h = (h', .ok t)) :
    t.map Prod.fst = ss ∧ ∀ s ∈ ss, ∃ cl n, Prepared g d s t h h' cl n := by
  induction ss generalizing h t with
  | nil =>
      obtain ⟨rfl, ht⟩ := Prod.mk.inj he
      cases ht
      exact ⟨rfl, by simp⟩
  | cons s ss ih =>
      obtain ⟨hs, hn⟩ := nodup_cons.1 hn
      have hne : ∀ r ∈ ss, g.table r ≠ g.table s := fun r hr heq ↦ hs (mem_map.2 ⟨r, hr, heq⟩)
      cases hcl : g.graph.getCluster s with
      | none =>
          rw [prepareGraph, hcl] at he
          cases (Prod.mk.inj he).2
      | some cl =>
          rw [prepareGraph, hcl] at he
          dsimp only at he
          generalize hl : g.isLocal cl (g.process d).host (g.process d).port = isLocal at he
          cases hr : g.prepareGraph d ss (prepareStage isLocal h (g.table s)) with
          | mk h₁ r =>
              rw [hr] at he
              obtain ⟨rfl, he⟩ := Prod.mk.inj he
              cases r with
              | error => cases he
              | ok t' =>
                  cases he
                  obtain ⟨hmap, hall⟩ := ih hn
                    (fun r hr ↦ (ht r (mem_cons_of_mem _ hr)).prepareStage) hr
                  refine ⟨by rw [map_cons, hmap], forall_mem_cons.2 ⟨⟨cl, h.length, hcl,
                    mem_cons_self, Nat.le_refl _, fun k ↦ ?_⟩, fun r hrs ↦ ?_⟩⟩
                  · have hfst : h₁ =
                        (g.prepareGraph d ss (prepareStage isLocal h (g.table s))).1 := by rw [hr]
                    rw [hl, hfst, getField, entriesAt_prepareGraph_ne hne]
                    exact getField_prepareStage (ht s mem_cons_self)
                  · obtain ⟨cl', n, hp⟩ := hall r hrs
                    have hold : entriesAt (prepareStage isLocal h (g.table s)) (g.table r) =
                        entriesAt h (g.table r) := entriesAt_prepareStage_ne (hne r hrs)
                    refine ⟨cl', n, hp.cluster, mem_cons_of_mem _ (hold ▸ hp.saved), ?_, ?_⟩
                    · have hlen := hp.fresh
                      rw [length_prepareStage] at hlen
                      exact Nat.le_of_succ_le hlen
                    · intro k
                      rw [hp.field k, getField, getField, hold]

/-- The loop returns if every stage is in a cluster. -/
theorem prepareGraph_isOk (hcl : ∀ s ∈ ss, ∃ cl, g.graph.getCluster s = some cl) :
    ∃ h' t, g.prepareGraph d ss h = (h', .ok t) := by
  induction ss generalizing h with
  | nil => exact ⟨h, [], rfl⟩
  | cons s ss ih =>
      obtain ⟨cl, hs⟩ := hcl s mem_cons_self
      obtain ⟨h', t, hr⟩ := ih (h := prepareStage
        (g.isLocal cl (g.process d).host (g.process d).port) h (g.table s))
        fun r hr ↦ hcl r (mem_cons_of_mem _ hr)
      refine ⟨h', (s, entriesAt h (g.table s)) :: t, ?_⟩
      rw [prepareGraph, hs]
      dsimp only
      rw [hr]
      rfl

omit [DecidableEq S] in
/-- **What `restore_graph` does to a field**: a saved one is as it was saved. -/
theorem getField_restoreGraph {t : Saved S} {r : List (Value × Value)}
    (hn : (t.map fun sr ↦ g.table sr.1).Nodup) (ht : IsTable h (g.table s))
    (hm : (s, r) ∈ t) : getField (g.restoreGraph t h) (g.table s) k =
      if k ∈ r.map Prod.fst then getEntry r k else getField h (g.table s) k := by
  have hother : ∀ (l : Saved S) (h : Heap), g.table s ∉ (l.map fun sr ↦ g.table sr.1) →
      entriesAt (g.restoreGraph l h) (g.table s) = entriesAt h (g.table s) := by
    intro l
    induction l with
    | nil => exact fun _ _ ↦ rfl
    | cons e l ih =>
        intro h hl
        rw [map_cons, mem_cons, not_or] at hl
        exact (ih _ hl.2).trans (entriesAt_restoreStage_ne hl.1)
  induction t generalizing h with
  | nil => cases hm
  | cons e t ih =>
      rw [map_cons, nodup_cons] at hn
      rcases mem_cons.1 hm with rfl | hm
      · change getField (g.restoreGraph t (restoreStage h (g.table s) r)) _ _ = _
        rw [getField, hother _ _ hn.1]
        exact getField_restoreStage ht
      · have hne : g.table s ≠ g.table e.1 := by
          intro heq
          exact hn.1 (heq ▸ mem_map.2 ⟨(s, r), hm, rfl⟩)
        have hold : entriesAt (restoreStage h (g.table e.1) e.2) (g.table s) =
            entriesAt h (g.table s) := entriesAt_restoreStage_ne hne
        refine (ih hn.2 ht.restoreStage hm).trans ?_
        rw [getField, hold, getField]

end Loops

/-! ## When the graph is unchanged -/

/-- Every field of every stage has the value it had. -/
def Unchanged (g : Program S C P) (h h' : Heap) : Prop :=
  ∀ s ∈ g.graph.stages, ∀ k, getField h' (g.table s) k = getField h (g.table s) k

/-- The stage is in a cluster, and has all the fields that are overwritten before it is sent
to the process. -/
def Restorable (g : Program S C P) (d : P) (h : Heap) (s : S) : Prop :=
  ∃ cl, g.graph.getCluster s = some cl ∧ getField h (g.table s) (str "pending") ≠ .nil ∧
    (g.isLocal cl (g.process d).host (g.process d).port = false →
      getField h (g.table s) (str "handler") ≠ .nil ∧ getField h (g.table s) (str "init") ≠ .nil)

section Unchanged

variable {g : Program S C P} {d : P} {h h' : Heap} {s : S} {k v : Value}

omit [DecidableEq S] in
theorem mem_of_getEntry {es : List (Value × Value)} (hv : getEntry es k = v) (hne : v ≠ .nil) :
    (k, v) ∈ es := by
  rw [getEntry] at hv
  cases hl : es.lookup k with
  | none =>
      rw [hl] at hv
      exact absurd hv.symm hne
  | some w =>
      rw [hl] at hv
      obtain rfl : w = v := hv
      obtain ⟨l₁, l₂, rfl, -⟩ := List.lookup_eq_some_iff.1 hl
      simp

omit [DecidableEq S] in
/-- The keys of a table are those whose value is not `nil`. -/
theorem mem_keys_iff {es : List (Value × Value)} (hes : ∀ e ∈ es, e.2 ≠ .nil) :
    k ∈ es.map Prod.fst ↔ getEntry es k ≠ .nil := by
  constructor
  · intro hk hnil
    obtain ⟨e, he, rfl⟩ := mem_map.1 hk
    cases hl : es.lookup e.1 with
    | none => exact absurd (List.lookup_eq_none_iff.1 hl e he) (by simp)
    | some w =>
        obtain ⟨l₁, l₂, rfl, -⟩ := List.lookup_eq_some_iff.1 hl
        rw [getEntry, hl] at hnil
        exact hes (e.1, w) (by simp) hnil
  · intro hne
    exact mem_map.2 ⟨_, mem_of_getEntry rfl hne, rfl⟩

namespace StageObjects

variable (ho : StageObjects g h)
include ho

theorem entries (hs : s ∈ g.graph.stages) :
    ∃ t : Lua.Table, h[g.table s]? = some (.table t) ∧ entriesAt h (g.table s) = t.entries := by
  obtain ⟨t, ht⟩ := ho.isTable s hs
  exact ⟨t, ht, by rw [entriesAt, ht]⟩

theorem mem_keys_iff (hs : s ∈ g.graph.stages) :
    k ∈ (entriesAt h (g.table s)).map Prod.fst ↔ getField h (g.table s) k ≠ .nil := by
  obtain ⟨t, ht, he⟩ := ho.entries hs
  exact Program.mem_keys_iff (he ▸ (ho.heap.tables _ t ht).values)

/-- A new object is the value of no field. -/
theorem getField_ne_fresh (hs : s ∈ g.graph.stages) {n : Nat} (hn : h.length ≤ n) :
    getField h (g.table s) k ≠ .object n := by
  intro heq
  obtain ⟨t, ht, he⟩ := ho.entries hs
  have hmem : (k, Value.object n) ∈ t.entries := he ▸ mem_of_getEntry heq (by simp)
  have hlt := ho.heap.refs _ t ht _ hmem n (.inr rfl)
  exact absurd hlt (Nat.not_lt.2 hn)

theorem nodup_table {ss : List S} (hp : ss.Perm g.graph.stages) : (ss.map g.table).Nodup := by
  refine (hp.nodup_iff.2 (nodup_dedup _)).map_on fun s hs r hr ↦ ?_
  exact ho.table_inj s (hp.mem_iff.1 hs) r (hp.mem_iff.1 hr)

/-- After `prepare_graph`, however it ended, the graph is not unchanged. -/
theorem not_unchanged_prepareGraph {ss : List S} (hp : ss.Perm g.graph.stages)
    (hne : g.graph.stages ≠ []) : ¬ Unchanged g h (g.prepareGraph d ss h).1 := by
  intro hu
  cases ss with
  | nil => exact hne hp.symm.eq_nil
  | cons s ss =>
      have hs := hp.mem_iff.1 (mem_cons_self (a := s))
      have hnodup := nodup_cons.1 (ho.nodup_table hp)
      have hhead := getField_prepareGraph_head d ss (ho.isTable s hs)
        fun r hr heq ↦ hnodup.1 (mem_map.2 ⟨r, hr, heq⟩)
      rw [hu s hs] at hhead
      exact ho.getField_ne_fresh hs (Nat.le_refl _) hhead

end StageObjects

/-- A prepared stage whose saved pairs are written back has the fields it had, exactly if it
had all fields that were overwritten. -/
theorem Prepared.unchanged_iff {t : Saved S} {cl : Cluster S} {n : Nat}
    (hp : Prepared g d s t h h' cl n) :
    (∀ k, (if getField h (g.table s) k ≠ .nil then getField h (g.table s) k
        else getField h' (g.table s) k) = getField h (g.table s) k) ↔ Restorable g d h s := by
  have hhandler : str "handler" ≠ str "pending" := by decide
  have hinit : str "init" ≠ str "pending" := by decide
  constructor
  · intro hu
    have hne : ∀ k, getField h' (g.table s) k ≠ .nil → getField h (g.table s) k ≠ .nil := by
      intro k hk hnil
      have hk' := hu k
      rw [if_neg (by simp [hnil]), hnil] at hk'
      exact hk hk'
    refine ⟨cl, hp.cluster, hne _ ?_, fun hl ↦ ⟨hne _ ?_, hne _ ?_⟩⟩
    · rw [hp.field, if_pos rfl]
      simp
    · rw [hp.field, if_neg hhandler, if_pos ⟨hl, .inl rfl⟩]
      simp [str]
    · rw [hp.field, if_neg hinit, if_pos ⟨hl, .inr rfl⟩]
      simp [str]
  · rintro ⟨cl', hcl, hpending, hcode⟩ k
    obtain rfl : cl = cl' := Option.some.inj (hp.cluster.symm.trans hcl)
    split
    · rfl
    · rename_i hnil
      have hnil := not_not.1 hnil
      rw [hp.field, if_neg, if_neg]
      · rintro ⟨hl, rfl | rfl⟩
        · exact (hcode hl).1 hnil
        · exact (hcode hl).2 hnil
      · rintro rfl
        exact hpending hnil

/-- A stage has its fields back when `restore_graph` returns exactly if it lacked none. -/
theorem unchanged_restoreGraph_iff (ho : StageObjects g h) (x : Sending g) {t : Saved S}
    (hr : g.prepareGraph d x.stages h = (h', .ok t)) (hs : s ∈ g.graph.stages) :
    (∀ k, getField (g.restoreGraph (x.saved t) h') (g.table s) k = getField h (g.table s) k) ↔
      Restorable g d h s := by
  have hnodup := ho.nodup_table x.stages_perm
  obtain ⟨hmap, hall⟩ := prepared_of_prepareGraph hnodup
    (fun r hr ↦ ho.isTable r (x.stages_perm.mem_iff.1 hr)) hr
  obtain ⟨cl, n, hp⟩ := hall s (x.stages_perm.mem_iff.2 hs)
  have hsaved : ((x.saved t).map fun sr ↦ g.table sr.1).Nodup := by
    refine ((x.saved_perm t).map _).nodup_iff.2 ?_
    rwa [← hmap, map_map] at hnodup
  have ht : IsTable h' (g.table s) := by
    have hfst : h' = (g.prepareGraph d x.stages h).1 := by rw [hr]
    rw [hfst]
    exact isTable_prepareGraph (ho.isTable s hs)
  rw [← hp.unchanged_iff]
  refine forall_congr' fun k ↦ ?_
  rw [getField_restoreGraph hsaved ht ((x.saved_perm t).mem_iff.2 hp.saved)]
  simp only [ho.mem_keys_iff hs]
  rfl

/-- **The graph is unchanged exactly if** it has no stages, or the process was not reached, or
it was encoded and no stage lacked a field that is overwritten for this process. -/
theorem sendGraph_unchanged_iff (ho : StageObjects g h) (d : P) (x : Sending g) :
    Unchanged g h (g.sendGraph d x h).1 ↔
      g.graph.stages = [] ∨ (∃ err, x.connected = .error err) ∨
        (∃ b, x.encoded = .ok b) ∧ ∀ s ∈ g.graph.stages, Restorable g d h s := by
  by_cases hnil : g.graph.stages = []
  · refine ⟨fun _ ↦ .inl hnil, fun _ s hs ↦ ?_⟩
    rw [hnil] at hs
    cases hs
  have hchanged := ho.not_unchanged_prepareGraph (d := d) x.stages_perm hnil
  cases hc : x.connected with
  | error err =>
      simp only [sendGraph, hc]
      exact ⟨fun _ ↦ .inr (.inl ⟨err, rfl⟩), fun _ _ _ _ ↦ rfl⟩
  | ok u =>
      cases hr : g.prepareGraph d x.stages h with
      | mk h' r =>
          rw [hr] at hchanged
          cases r with
          | error err =>
              simp only [sendGraph, hc, hr]
              refine ⟨fun hu ↦ absurd hu hchanged, ?_⟩
              rintro (hstages | ⟨_, he⟩ | ⟨-, hall⟩)
              · exact absurd hstages hnil
              · cases he
              · have hcl : ∀ s ∈ x.stages, ∃ cl, g.graph.getCluster s = some cl := by
                  intro s hs
                  obtain ⟨cl, hcl, -⟩ := hall s (x.stages_perm.mem_iff.1 hs)
                  exact ⟨cl, hcl⟩
                obtain ⟨h'', t, hr'⟩ := prepareGraph_isOk (d := d) (h := h) hcl
                rw [hr] at hr'
                cases (Prod.mk.inj hr').2
          | ok t =>
              cases henc : x.encoded with
              | error err =>
                  simp only [sendGraph, hc, hr, henc]
                  refine ⟨fun hu ↦ absurd hu hchanged, ?_⟩
                  rintro (hstages | ⟨_, he⟩ | ⟨⟨_, he⟩, -⟩)
                  · exact absurd hstages hnil
                  · cases he
                  · cases he
              | ok b =>
                  have hfst : (g.sendGraph d x h).1 = g.restoreGraph (x.saved t) h' := by
                    simp only [sendGraph, hc, hr, henc]
                    cases x.response <;> rfl
                  have hstage := fun s (hs : s ∈ g.graph.stages) ↦
                    unchanged_restoreGraph_iff ho x hr hs
                  rw [hfst, Unchanged, forall₂_congr hstage]
                  refine ⟨fun hall ↦ .inr (.inr ⟨⟨b, rfl⟩, hall⟩), ?_⟩
                  rintro (hstages | ⟨_, he⟩ | ⟨-, hall⟩)
                  · exact absurd hstages hnil
                  · cases he
                  · exact hall

end Unchanged

/-! ## A stage without an init function -/

/-- `echo` on one process, with pending events and without an init function. -/
def lone : Program Nat Nat Nat :=
  { echo with
    heap := [.table { entries := [(str "name", str "echo"), (str "handler", .object 1),
      (str "pending", .object 2)] }, .function ⟨.lua, [27], []⟩, .table {}]
    addr _ := [0] }

/-- Nothing goes wrong. -/
def sent : Sending lone where
  stages := [0]
  stages_perm := .refl _
  saved t := t
  saved_perm _ := .refl _
  connected := .ok ()
  encoded := .ok []
  response := .ok "ACCEPTED"

theorem lone_objects : StageObjects lone lone.heap where
  heap := by
    refine ⟨?_, ?_, ?_, ?_⟩
    · rintro (_ | _ | _ | a) t ht
      · cases ht
        exact ⟨by decide, by decide, by decide⟩
      · cases ht
      · cases ht
        exact ⟨by decide, by decide, by decide⟩
      · cases ht
    · rintro (_ | _ | _ | a) t ht e he b hb
      · cases ht
        simp only [mem_cons, not_mem_nil, or_false] at he
        rcases he with rfl | rfl | rfl <;> rcases hb with hb | hb <;> cases hb <;> decide
      · cases ht
      · cases ht
        cases he
      · cases ht
    · rintro (_ | _ | _ | a) f hf
      · cases hf
      · cases hf
        decide
      · cases hf
      · cases hf
    · rintro (_ | _ | _ | a) f hf u hu b hb
      · cases hf
      · cases hf
        cases hu
      · cases hf
      · cases hf
  isTable := by
    intro s hs
    have hs0 : s = 0 := by simpa [stages, lone, echo] using hs
    subst hs0
    exact ⟨_, rfl⟩
  table_inj _ _ _ _ h := h

theorem sendGraph_unchanged_iff_lone :
    Unchanged lone lone.heap (lone.sendGraph 1 sent lone.heap).1 ↔
      lone.graph.stages = [] ∨ (∃ err, sent.connected = .error err) ∨
        (∃ b, sent.encoded = .ok b) ∧ ∀ s ∈ lone.graph.stages, Restorable lone 1 lone.heap s :=
  sendGraph_unchanged_iff lone_objects 1 sent

/-- **The stage has got an init function**, although the graph was sent and accepted. -/
theorem not_sendGraph_unchanged : StageObjects lone lone.heap ∧
    (lone.sendGraph 1 sent lone.heap).2 = .ok () ∧
    ¬ Unchanged lone lone.heap (lone.sendGraph 1 sent lone.heap).1 := by
  refine ⟨lone_objects, by decide, fun hu ↦ ?_⟩
  have hinit := hu 0 (by decide) (str "init")
  revert hinit
  decide

end Program

end Leda.Graph
