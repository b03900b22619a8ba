import Mathlib.Data.List.Dedup
import Mathlib.Data.List.Nodup
import Mathlib.Data.List.Pairwise
import Mathlib.Logic.Function.Basic

/-!
# Mapping clusters to processes

`index.map` gives the clusters of a partitioned graph their processes, and then checks that
every cluster has one and that no process occurs twice.  The check compares process
*objects*.  That no host and port occur twice therefore rests on `get_process`, which keeps
one object for each: the list of processes of the module only ever grows, by pairs that are
not in it.  That a cluster with a serial stage has one process is not checked at all; here
it rests on `add_process`, which adds no second one, at any time.

Both are invariants of the state (`Sound`), which all the functions keep, whether they return
or raise an error.  So what a call of `map` has checked when it returns holds of the
addresses, after any calls before it (`map_mapped`).
-/

namespace Leda.Graph.Map

open List

variable {C S N : Type} [DecidableEq C] [DecidableEq N]

/-- What the functions find and do not change: the contents of the clusters, the resolution
of host names, the conversion of digits, and the address of this process. -/
structure Env (C S N : Type) where
  /-- The stages of a cluster. -/
  stages : C → List S
  /-- `s.serial` -/
  serial : S → Bool
  /-- `socket.dns.toip` -/
  toip : List UInt8 → Option (List UInt8)
  /-- `tonumber`, of digits. -/
  tonumber : List UInt8 → N
  /-- `leda.process.default_port` -/
  defaultPort : Option N
  localhost : List UInt8
  localport : Option N
  /-- `tostring` of a cluster. -/
  name : C → String
  /-- `string.format('%s:%d', …)`, of host and port. -/
  format : List UInt8 → Option N → String

/-- A process. -/
structure Proc (N : Type) where
  host : List UInt8
  port : Option N
deriving DecidableEq

/-- What is passed as a host. -/
inductive Host
  | string (s : List UInt8)
  | nil
  | false
  | /-- Something else, neither `nil` nor `false`. -/
    other (type : String)

/-- An argument of `map`: a string, a list, or something else. -/
inductive Arg
  | string (s : List UInt8)
  | list (l : List Host)
  | other (type : String)

/-- The processes of the module, the addresses of the clusters, and the clusters of the graph. -/
structure State (C N : Type) where
  /-- `processes` -/
  processes : List (Proc N)
  /-- `cluster.process_addr`, as places in that list. -/
  addr : C → List Nat
  /-- `g.cluster` -/
  cluster : Option (List C)

/-! ## Addresses -/

/-- `[%w%.]` -/
def isHostByte (b : UInt8) : Bool :=
  (48 ≤ b && b ≤ 57) || (65 ≤ b && b ≤ 90) || (97 ≤ b && b ≤ 122) || b = 46

/-- `%d` -/
def isDigit (b : UInt8) : Bool := 48 ≤ b && b ≤ 57

/-- The pattern `([%w%.]+):(%d+)`, at the beginning of a string. -/
def matchHere (s : List UInt8) : Option (List UInt8 × List UInt8) :=
  match s.dropWhile isHostByte with
  | 58 :: rest =>
    if s.takeWhile isHostByte ≠ [] ∧ rest.takeWhile isDigit ≠ [] then
      some (s.takeWhile isHostByte, rest.takeWhile isDigit)
    else none
  | _ => none

/-- `string.gmatch(host,"([%w%.]+):(%d+)")()` -/
def gmatch : List UInt8 → Option (List UInt8 × List UInt8)
  | [] => none
  | b :: s =>
    match matchHere (b :: s) with
    | some r => some r
    | none => gmatch s

/-! ## The functions -/

namespace State

/-- The loop of `get_process`, and the process that it adds. -/
def findProcess (σ : State C N) (d : Proc N) : State C N × Nat :=
  match σ.processes.idxOf? d with
  | some i => (σ, i)
  | none => ({ σ with processes := σ.processes ++ [d] }, σ.processes.length)

/-- `get_process`: the place of the process. -/
def getProcess (env : Env C S N) (σ : State C N) (host : Host) (port : Option N) :
    State C N × Except String Nat :=
  match host, port with
  | .nil, none | .false, none =>
    let (σ, i) := σ.findProcess ⟨(env.toip env.localhost).getD env.localhost, env.localport⟩
    (σ, .ok i)
  | .string h, port =>
    let (σ, i) := σ.findProcess ⟨(env.toip h).getD h, port⟩
    (σ, .ok i)
  | .nil, some _ => (σ, .error "Invalid hostname (string expected, got nil)")
  | .false, some _ => (σ, .error "Invalid hostname (string expected, got boolean)")
  | .other type, _ => (σ, .error ("Invalid hostname (string expected, got " ++ type ++ ")"))

/-- `index.has_serial` -/
def hasSerial (env : Env C S N) (c : C) : Bool := (env.stages c).any env.serial

/-- The address that `add_process` takes from its arguments. -/
def address (env : Env C S N) (host : Host) (port : Option N) : Host × Option N :=
  match host with
  | .string s =>
    match gmatch s with
    | some (h, p) => (.string h, some (env.tonumber p))
    | none => (.string s, port.orElse fun _ ↦ env.defaultPort)
  | host => (host, port.orElse fun _ ↦ env.defaultPort)

/-- `index.add_process` -/
def addProcess (env : Env C S N) (σ : State C N) (c : C) (host : Host) (port : Option N) :
    State C N × Except String Unit :=
  let (host, port) := address env host port
  if hasSerial env c && (σ.addr c).length > 0 then
    (σ, .error "Cannot add more than one process for a cluster with a serial stage")
  else
    match σ.getProcess env host port with
    | (σ, .error err) => (σ, .error err)
    | (σ, .ok i) => ({ σ with addr := Function.update σ.addr c (σ.addr c ++ [i]) }, .ok ())

/-- `index.set_process` -/
def setProcess (env : Env C S N) (σ : State C N) (c : C) (host : Host) (port : Option N) :
    State C N × Except String Unit :=
  addProcess env { σ with addr := Function.update σ.addr c [] } c host port

/-- The loop of `map` over a list of addresses, from the place `j` on. -/
def mapProcs (env : Env C S N) (c : C) : Nat → List Host → State C N →
    State C N × Except String Unit
  | _, [], σ => (σ, .ok ())
  | _, .nil :: _, σ => (σ, .ok ())
  | j, proc :: procs, σ =>
    match if j = 1 then setProcess env σ c proc none else addProcess env σ c proc none with
    | (σ, .error err) => (σ, .error err)
    | (σ, .ok _) => mapProcs env c (j + 1) procs σ

/-- The loop of `map` over its arguments, from the place `i` on; `cls` is what is left of
`g.cluster`. -/
def mapArgs (env : Env C S N) : List C → Nat → List Arg → State C N →
    State C N × Except String Unit
  | _, _, [], σ => (σ, .ok ())
  | _, i, .other type :: _, σ =>
    (σ, .error
      ("Invalid parameter #" ++ toString i ++ " type (table expected, got " ++ type ++ ")"))
  | [], i, _ :: args, σ => mapArgs env [] (i + 1) args σ
  | c :: cls, i, .string s :: args, σ =>
    match mapProcs env c 1 [.string s] σ with
    | (σ, .error err) => (σ, .error err)
    | (σ, .ok _) => mapArgs env cls (i + 1) args σ
  | c :: cls, i, .list l :: args, σ =>
    match mapProcs env c 1 l σ with
    | (σ, .error err) => (σ, .error err)
    | (σ, .ok _) => mapArgs env cls (i + 1) args σ

/-- The check of `map` for the processes of a cluster, with those seen before. -/
def checkAddr (env : Env C S N) (σ : State C N) : List Nat → List Nat → Except String (List Nat)
  | [], seen => .ok seen
  | i :: l, seen =>
    if i ∈ seen then
      .error ("Process '" ++ ((σ.processes[i]?).elim "" fun d ↦ env.format d.host d.port) ++
        "' is already running a cluster")
    else σ.checkAddr env l (i :: seen)

/-- The check of `map` over the clusters. -/
def check (env : Env C S N) (σ : State C N) : List C → List Nat → Except String Unit
  | [], _ => .ok ()
  | c :: cs, seen =>
    if σ.addr c = [] then
      .error ("Cluster '" ++ env.name c ++ "' does not have any process")
    else do
      let seen ← σ.checkAddr env (σ.addr c) seen
      σ.check env cs seen

/-- An order in which `pairs` visits the clusters of the graph. -/
structure Visit (C : Type) where
  order : List C → List C
  perm : ∀ l, (order l).Perm l

/-- `index.map` -/
def map (env : Env C S N) (σ : State C N) (args : List Arg) (visit : Visit C) :
    State C N × Except String Unit :=
  match σ.cluster with
  | none => (σ, .error "Graph is not partitioned")
  | some cls =>
    match mapArgs env cls 1 args σ with
    | (σ, .error err) => (σ, .error err)
    | (σ, .ok _) =>
      match σ.check env (visit.order cls.dedup) [] with
      | .error err => ({ σ with cluster := none }, .error err)
      | .ok _ => (σ, .ok ())

/-- What may happen to the clusters and the processes. -/
inductive Op (C N : Type)
  | map (args : List Arg) (visit : Visit C)
  | setProcess (c : C) (host : Host) (port : Option N)
  | addProcess (c : C) (host : Host) (port : Option N)
  | getProcess (host : Host) (port : Option N)
  | /-- The graph is partitioned; new clusters have no processes yet. -/
    part (cls : List C)

/-- The state that an operation leaves, however it ends. -/
def exec (env : Env C S N) (σ : State C N) : Op C N → State C N
  | .map args visit => (σ.map env args visit).1
  | .setProcess c host port => (σ.setProcess env c host port).1
  | .addProcess c host port => (σ.addProcess env c host port).1
  | .getProcess host port => (σ.getProcess env host port).1
  | .part cls => { σ with cluster := some cls }

/-- No processes, and clusters as `new_cluster` makes them. -/
def initial : State C N := ⟨[], fun _ ↦ [], none⟩

/-- The state after some operations. -/
def after (env : Env C S N) (ops : List (Op C N)) : State C N := ops.foldl (exec env) initial

/-! ## The invariant -/

/-- **The processes are different, those of the clusters exist, and a cluster with a serial
stage has at most one.** -/
structure Sound (env : Env C S N) (σ : State C N) : Prop where
  distinct : σ.processes.Nodup
  exist : ∀ c, ∀ i ∈ σ.addr c, i < σ.processes.length
  serial : ∀ c, hasSerial env c = true → (σ.addr c).length ≤ 1

section Invariant

variable {env : Env C S N} {σ σ' : State C N} {c : C} {host : Host} {port : Option N}
variable {d : Proc N}

omit [DecidableEq C] in
theorem findProcess_spec (h : Sound env σ) : Sound env (σ.findProcess d).1 ∧
    (σ.findProcess d).1.addr = σ.addr ∧
      (σ.findProcess d).2 < (σ.findProcess d).1.processes.length := by
  unfold findProcess
  cases hd : σ.processes.idxOf? d with
  | some i =>
      have hlt := (List.idxOf?_eq_some_iff.1 hd).1
      exact ⟨h, rfl, hlt⟩
  | none =>
      have hnot : d ∉ σ.processes := List.idxOf?_eq_none_iff.1 hd
      refine ⟨⟨?_, fun c i hi ↦ ?_, h.serial⟩, rfl, by simp⟩
      · exact nodup_append.2 ⟨h.distinct, nodup_singleton _, by
          intro a ha b hb heq
          obtain rfl := mem_singleton.1 hb
          exact hnot (heq ▸ ha)⟩
      · have hlt := h.exist c i hi
        simp only [length_append, length_singleton]
        omega

omit [DecidableEq C] in
/-- `get_process` either raises an error, or returns what its loop finds or adds. -/
theorem getProcess_cases (env : Env C S N) (σ : State C N) (host : Host) (port : Option N) :
    (∃ err, σ.getProcess env host port = (σ, .error err)) ∨
      ∃ d, σ.getProcess env host port = ((σ.findProcess d).1, .ok (σ.findProcess d).2) := by
  cases host with
  | string s => exact .inr ⟨_, rfl⟩
  | nil =>
      cases port with
      | none => exact .inr ⟨_, rfl⟩
      | some p => exact .inl ⟨_, rfl⟩
  | false =>
      cases port with
      | none => exact .inr ⟨_, rfl⟩
      | some p => exact .inl ⟨_, rfl⟩
  | other type => exact .inl ⟨_, rfl⟩

omit [DecidableEq C] in
theorem getProcess_spec (h : Sound env σ) (host : Host) (port : Option N) :
    Sound env (σ.getProcess env host port).1 ∧
    (σ.getProcess env host port).1.addr = σ.addr ∧
      ∀ i, (σ.getProcess env host port).2 = .ok i →
        i < (σ.getProcess env host port).1.processes.length := by
  rcases getProcess_cases env σ host port with ⟨err, heq⟩ | ⟨d, heq⟩
  · rw [heq]
    exact ⟨h, rfl, fun i hi ↦ by cases hi⟩
  · obtain ⟨hs, ha, hlt⟩ := findProcess_spec (d := d) h
    rw [heq]
    exact ⟨hs, ha, fun i hi ↦ Except.ok.inj hi ▸ hlt⟩

/-- `add_process` adds no second process to a cluster with a serial stage. -/
theorem addProcess_sound (h : Sound env σ) : Sound env (σ.addProcess env c host port).1 := by
  unfold addProcess
  split
  rename_i host' port' _
  split
  · exact h
  · rename_i hserial
    obtain ⟨hs, ha, hi⟩ := getProcess_spec h host' port'
    cases hr : σ.getProcess env host' port' with
    | mk σ' r =>
        rw [hr] at hs ha hi
        cases r with
        | error err => exact hs
        | ok i =>
            refine ⟨hs.distinct, fun c' j hj ↦ ?_, fun c' hc' ↦ ?_⟩
            · change j ∈ Function.update σ'.addr c (σ'.addr c ++ [i]) c' at hj
              by_cases hcc : c' = c
              · subst hcc
                rw [Function.update_self] at hj
                rcases mem_append.1 hj with hj | hj
                · exact hs.exist c' j hj
                · obtain rfl := mem_singleton.1 hj
                  exact hi j rfl
              · rw [Function.update_of_ne hcc] at hj
                exact hs.exist c' j hj
            · change (Function.update σ'.addr c (σ'.addr c ++ [i]) c').length ≤ 1
              by_cases hcc : c' = c
              · subst hcc
                have hnone : (σ.addr c').length = 0 := by
                  simpa [hc'] using hserial
                have ha' : σ'.addr c' = σ.addr c' := congrFun ha c'
                rw [Function.update_self, ha', length_append, hnone]
                simp
              · rw [Function.update_of_ne hcc]
                exact hs.serial c' hc'

omit [DecidableEq N] in
/-- A cluster may lose its processes. -/
theorem Sound.reset (h : Sound env σ) (c : C) :
    Sound env { σ with addr := Function.update σ.addr c [] } := by
  refine ⟨h.distinct, fun c' i hi ↦ ?_, fun c' hc' ↦ ?_⟩
  · change i ∈ Function.update σ.addr c [] c' at hi
    by_cases hcc : c' = c
    · subst hcc
      rw [Function.update_self] at hi
      cases hi
    · rw [Function.update_of_ne hcc] at hi
      exact h.exist c' i hi
  · change (Function.update σ.addr c [] c').length ≤ 1
    by_cases hcc : c' = c
    · subst hcc
      simp
    · rw [Function.update_of_ne hcc]
      exact h.serial c' hc'

theorem setProcess_sound (h : Sound env σ) : Sound env (σ.setProcess env c host port).1 :=
  addProcess_sound (h.reset c)

theorem addProcess_cluster : (σ.addProcess env c host port).1.cluster = σ.cluster := by
  unfold addProcess
  split
  rename_i host' port' _
  split
  · rfl
  · rcases getProcess_cases env σ host' port' with ⟨err, heq⟩ | ⟨d, heq⟩
    · rw [heq]
    · rw [heq]
      change (σ.findProcess d).1.cluster = σ.cluster
      unfold findProcess
      cases σ.processes.idxOf? d <;> rfl

section Keeps

variable {P : State C N → Prop}
variable (hset : ∀ σ c host port, P σ → P (setProcess env σ c host port).1)
variable (hadd : ∀ σ c host port, P σ → P (addProcess env σ c host port).1)

include hset hadd

/-- What `set_process` and `add_process` keep, the loops of `map` keep. -/
theorem mapProcs_keeps (l : List Host) (j : Nat) (h : P σ) : P (mapProcs env c j l σ).1 := by
  induction l generalizing j σ with
  | nil => exact h
  | cons proc procs ih =>
      have hstep : P (if j = 1 then setProcess env σ c proc none
          else addProcess env σ c proc none).1 := by
        split
        · exact hset _ _ _ _ h
        · exact hadd _ _ _ _ h
      by_cases hnil : proc = .nil
      · subst hnil
        exact h
      · rw [mapProcs]
        · split
          · rename_i hr
            rwa [hr] at hstep
          · rename_i hr
            rw [hr] at hstep
            exact ih _ hstep
        · exact hnil

theorem mapArgs_keeps (args : List Arg) (cls : List C) (i : Nat) (h : P σ) :
    P (mapArgs env cls i args σ).1 := by
  induction args generalizing cls i σ with
  | nil => cases cls <;> exact h
  | cons arg args ih =>
      have hproc : ∀ (c : C) (cls : List C) (l : List Host),
          P (match mapProcs env c 1 l σ with
            | (σ, .error err) => (σ, Except.error err)
            | (σ, .ok _) => mapArgs env cls (i + 1) args σ).1 := by
        intro c cls l
        have hstep := mapProcs_keeps (c := c) hset hadd l 1 h
        split
        · rename_i hr
          rwa [hr] at hstep
        · rename_i hr
          rw [hr] at hstep
          exact ih cls (i + 1) hstep
      cases arg with
      | other type => cases cls <;> exact h
      | string s =>
          cases cls with
          | nil => exact ih [] (i + 1) h
          | cons c cls => exact hproc c cls [.string s]
      | list l =>
          cases cls with
          | nil => exact ih [] (i + 1) h
          | cons c cls => exact hproc c cls l

end Keeps

theorem mapArgs_sound (args : List Arg) (cls : List C) (i : Nat) (h : Sound env σ) :
    Sound env (mapArgs env cls i args σ).1 :=
  mapArgs_keeps (fun _ _ _ _ h ↦ setProcess_sound h) (fun _ _ _ _ h ↦ addProcess_sound h)
    args cls i h

theorem mapArgs_cluster (args : List Arg) (cls : List C) (i : Nat) :
    (mapArgs env cls i args σ).1.cluster = σ.cluster :=
  mapArgs_keeps (P := fun σ' ↦ σ'.cluster = σ.cluster)
    (fun _ _ _ _ h ↦ addProcess_cluster.trans h) (fun _ _ _ _ h ↦ addProcess_cluster.trans h)
    args cls i rfl

theorem map_sound (args : List Arg) (visit : Visit C) (h : Sound env σ) :
    Sound env (σ.map env args visit).1 := by
  unfold map
  split
  · exact h
  · rename_i cls _
    have hargs := mapArgs_sound args cls 1 h
    split
    · rename_i hr
      rwa [hr] at hargs
    · rename_i hr
      rw [hr] at hargs
      split
      · exact ⟨hargs.distinct, hargs.exist, hargs.serial⟩
      · exact hargs

/-- **Every operation keeps the invariant**, also if it raises an error. -/
theorem exec_sound (op : Op C N) (h : Sound env σ) : Sound env (exec env σ op) := by
  cases op with
  | map args visit => exact map_sound args visit h
  | setProcess c host port => exact setProcess_sound h
  | addProcess c host port => exact addProcess_sound h
  | getProcess host port => exact (getProcess_spec h host port).1
  | part cls => exact ⟨h.distinct, h.exist, h.serial⟩

theorem sound_after (env : Env C S N) (ops : List (Op C N)) : Sound env (after env ops) := by
  suffices h : ∀ σ, Sound env σ → Sound env (ops.foldl (exec env) σ) from
    h _ ⟨nodup_nil, by simp [initial], by simp [initial]⟩
  induction ops with
  | nil => exact fun _ h ↦ h
  | cons op ops ih => exact fun σ h ↦ ih _ (exec_sound op h)

end Invariant

/-! ## What `map` has checked -/

section Check

variable {env : Env C S N} {σ σ' : State C N} {l seen : List Nat} {cs : List C}

omit [DecidableEq C] [DecidableEq N] in
theorem checkAddr_eq_ok {seen' : List Nat} (h : σ.checkAddr env l seen = .ok seen') :
    l.Nodup ∧ (∀ i ∈ l, i ∉ seen) ∧ ∀ i, i ∈ seen' ↔ i ∈ l ∨ i ∈ seen := by
  induction l generalizing seen with
  | nil =>
      cases h
      exact ⟨nodup_nil, by simp, by simp⟩
  | cons i l ih =>
      rw [checkAddr] at h
      split at h
      · cases h
      · rename_i hi
        obtain ⟨hn, hnew, hall⟩ := ih h
        refine ⟨nodup_cons.2 ⟨fun hm ↦ hnew i hm mem_cons_self, hn⟩, ?_, fun j ↦ ?_⟩
        · refine forall_mem_cons.2 ⟨hi, fun j hj hm ↦ hnew j hj (mem_cons_of_mem _ hm)⟩
        · rw [hall, mem_cons, mem_cons, or_left_comm, or_assoc]

omit [DecidableEq C] [DecidableEq N] in
/-- **The check returns only if** every cluster has a process and none occurs twice. -/
theorem check_eq_ok (h : σ.check env cs seen = .ok ()) : (∀ c ∈ cs, σ.addr c ≠ []) ∧
    (cs.flatMap σ.addr).Nodup ∧ ∀ i ∈ cs.flatMap σ.addr, i ∉ seen := by
  induction cs generalizing seen with
  | nil => exact ⟨by simp, nodup_nil, by simp⟩
  | cons c cs ih =>
      rw [check] at h
      split at h
      · cases h
      · rename_i hne
        cases hc : σ.checkAddr env (σ.addr c) seen with
        | error err =>
            rw [hc] at h
            cases h
        | ok seen' =>
            rw [hc] at h
            obtain ⟨hn, hnew, hall⟩ := checkAddr_eq_ok hc
            obtain ⟨hsome, hn', hnew'⟩ := ih h
            refine ⟨forall_mem_cons.2 ⟨hne, hsome⟩, ?_, fun i hi ↦ ?_⟩
            · rw [flatMap_cons]
              refine nodup_append.2 ⟨hn, hn', fun i hi j hj heq ↦ ?_⟩
              exact hnew' j hj ((hall j).2 (.inl (heq ▸ hi)))
            · rw [flatMap_cons] at hi
              rcases mem_append.1 hi with hi | hi
              · exact hnew i hi
              · exact fun hm ↦ hnew' i hi ((hall i).2 (.inr hm))

/-- `g:clusters()` -/
def clusters (σ : State C N) : List C := (σ.cluster.getD []).dedup

/-- The hosts and ports of a cluster. -/
def procs (σ : State C N) (c : C) : List (Proc N) := (σ.addr c).filterMap fun i ↦ σ.processes[i]?

/-- **Each process has one cluster**: every cluster has a process, no host and port occur twice,
in one cluster or in two, and a cluster with a serial stage has one process. -/
structure Mapped (env : Env C S N) (σ : State C N) : Prop where
  some : ∀ c ∈ σ.clusters, σ.procs c ≠ []
  within : ∀ c ∈ σ.clusters, (σ.procs c).Nodup
  between : ∀ c ∈ σ.clusters, ∀ c' ∈ σ.clusters, c ≠ c' → ∀ d ∈ σ.procs c, d ∉ σ.procs c'
  serial : ∀ c ∈ σ.clusters, hasSerial env c = true → (σ.procs c).length = 1

omit [DecidableEq C] [DecidableEq N] in
theorem length_procs (h : Sound env σ) (c : C) : (σ.procs c).length = (σ.addr c).length := by
  have hall : ∀ l : List Nat, (∀ i ∈ l, i < σ.processes.length) →
      (l.filterMap fun i ↦ σ.processes[i]?).length = l.length := by
    intro l hl
    induction l with
    | nil => rfl
    | cons i l ih =>
        obtain ⟨hi, hl⟩ := forall_mem_cons.1 hl
        rw [filterMap_cons_some (List.getElem?_eq_getElem hi), length_cons, ih hl, length_cons]
  exact hall _ (h.exist c)

omit [DecidableEq C] [DecidableEq N] in
/-- Different processes have different hosts or ports. -/
theorem Sound.place_inj (h : Sound env σ) {i j : Nat} {d : Proc N}
    (hi : σ.processes[i]? = some d) (hj : σ.processes[j]? = some d) : i = j := by
  obtain ⟨hilt, hid⟩ := List.getElem?_eq_some_iff.1 hi
  obtain ⟨hjlt, hjd⟩ := List.getElem?_eq_some_iff.1 hj
  exact (h.distinct.getElem_inj_iff).1 (hid.trans hjd.symm)

omit [DecidableEq N] in
theorem mapped_of_check (h : Sound env σ) {visit : Visit C}
    (hc : σ.check env (visit.order σ.clusters) [] = .ok ()) : Mapped env σ := by
  obtain ⟨hsome, hn, -⟩ := check_eq_ok hc
  have hmem : ∀ c, c ∈ visit.order σ.clusters ↔ c ∈ σ.clusters :=
    fun c ↦ (visit.perm _).mem_iff
  rw [nodup_flatMap] at hn
  have hpos : ∀ c ∈ σ.clusters, 0 < (σ.procs c).length := by
    intro c hm
    rw [length_procs h]
    exact length_pos_iff.2 (hsome c ((hmem c).2 hm))
  refine ⟨fun c hm ↦ length_pos_iff.1 (hpos c hm), fun c hm ↦ ?_, fun c hm c' hm' hne d hd hd' ↦ ?_,
    fun c hm hserial ↦ ?_⟩
  · refine (hn.1 c ((hmem c).2 hm)).filterMap fun i j d hi hj ↦ ?_
    exact h.place_inj hi hj
  · obtain ⟨i, hi, hid⟩ := mem_filterMap.1 hd
    obtain ⟨j, hj, hjd⟩ := mem_filterMap.1 hd'
    obtain rfl := h.place_inj hid hjd
    have hsymm : Std.Symm (Function.onFun List.Disjoint σ.addr) := ⟨fun _ _ h ↦ h.symm⟩
    exact hn.2.forall ((hmem c).2 hm) ((hmem c').2 hm') hne hi hj
  · have hle := h.serial c hserial
    have hlt := hpos c hm
    rw [length_procs h] at hlt ⊢
    omega

/-- **If `map` returns, each process has one cluster**, whatever was done before: of the
clusters there were before the call, as `map` leaves the partition as it is. -/
theorem map_mapped (env : Env C S N) (ops : List (Op C N)) (args : List Arg) (visit : Visit C)
    (h : ((after env ops).map env args visit).2 = .ok ()) :
    ((after env ops).map env args visit).1.cluster = (after env ops).cluster ∧
      Mapped env ((after env ops).map env args visit).1 := by
  generalize hσ : after env ops = σ at h ⊢
  have hsound : Sound env σ := hσ ▸ sound_after env ops
  unfold map at h ⊢
  cases hcl : σ.cluster with
  | none =>
      rw [hcl] at h
      cases h
  | some cls =>
      rw [hcl] at h
      have hargs := mapArgs_sound args cls 1 hsound
      have hkept : (mapArgs env cls 1 args σ).1.cluster = some cls :=
        (mapArgs_cluster args cls 1).trans hcl
      dsimp only at h ⊢
      cases hr : mapArgs env cls 1 args σ with
      | mk σ' r =>
          rw [hr] at h hargs hkept
          cases r with
          | error err => cases h
          | ok u =>
              dsimp only at h hkept ⊢
              have hclusters : σ'.clusters = cls.dedup := by
                rw [clusters, hkept, Option.getD_some]
              cases hc : σ'.check env (visit.order cls.dedup) [] with
              | error err =>
                  rw [hc] at h
                  cases h
              | ok u => exact ⟨hkept, mapped_of_check hargs (hclusters ▸ hc)⟩

/-- Two clusters, the second with a serial stage; there are no names to resolve. -/
def twoClusters : Env Nat Nat Nat where
  stages c := [c]
  serial s := s = 1
  toip _ := none
  tonumber := List.foldl (fun n b ↦ 10 * n + (b.toNat - 48)) 0
  defaultPort := some 9999
  localhost := [49]
  localport := some 9999
  name := toString
  format _ _ := "process"

/-- After a call that fails, as both clusters are given `a:1`, and a second partition, the
clusters are given `a:1` with `b`, and `c`. -/
theorem map_mapped_two :
    ((after twoClusters [.part [0, 1],
        .map [.string [97, 58, 49], .string [97, 58, 49]] ⟨id, fun _ ↦ .refl _⟩,
        .part [0, 1]]).map twoClusters
      [.list [.string [97, 58, 49], .string [98]], .string [99]]
      ⟨id, fun _ ↦ .refl _⟩).1.cluster = some [0, 1] ∧
    Mapped twoClusters ((after twoClusters [.part [0, 1],
        .map [.string [97, 58, 49], .string [97, 58, 49]] ⟨id, fun _ ↦ .refl _⟩,
        .part [0, 1]]).map twoClusters
      [.list [.string [97, 58, 49], .string [98]], .string [99]] ⟨id, fun _ ↦ .refl _⟩).1 :=
  map_mapped twoClusters _ _ _ (by decide)

end Check

end State

end Leda.Graph.Map
