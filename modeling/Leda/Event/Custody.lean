import Leda.Event.Transfer
import Leda.Kernel.Pending
import Leda.Marshal.Parcels
import Leda.Marshal.Wrapped

/-!
# Resources that are sent

A file, a socket or a memarray is a userdata around a handle, and its `__wrap` hook takes
the handle out: `leda.io.wrap` stores `NULL` in its place, so does `to_ptr`, and a socket
gets the descriptor `-1`.  What was taken out is with the function the hook returned, which
is sent in place of the userdata, and if the hook is called again it finds nothing.  So a
handle has one owner whatever happens (`owners_custody`): its userdata, until the first call
of the hook, and the parcel that is written for that call from then on.

Where the parcels end up is up to the send.  An event that is accepted by a stage of this
process has all of them, and whoever restores it opens each of them once.  There are two ways
to go wrong.

* `emmit` extracts the event, and calls the hooks, before it tries to push it into the
  pending queue; when the queue turns out to be full it answers `nil` and forgets the event,
  and nobody opens the parcels any more.
* To another process the event goes without `__wrap` hooks, which the mode of the encoder
  does not permit.  A userdata that also has a `__persist` hook, as a memarray has, is
  copied: the send succeeds, and the sender keeps what it has sent.

`handover_iff` says that there are no others.
-/

universe u

namespace Leda.Event

open Leda.Lib Leda.Lua Leda.Marshal Leda.Kernel List

/-! ## Who has a resource -/

/-- Which userdata still have their resource, and whose resource is in the parcel of each
call. -/
structure Custody where
  inPlace : Nat → Bool
  parcels : List (Option Nat)

namespace Custody

/-- Every userdata has its resource. -/
def start : Custody where
  inPlace _ := true
  parcels := []

/-- A `__wrap` hook takes the resource out of its userdata, if it is there; other hooks
leave it. -/
def call (w : Custody) (c : Marshal.Call) : Custody :=
  if c.name = "__wrap" then
    { inPlace := Function.update w.inPlace c.object false
      parcels := w.parcels ++ [if w.inPlace c.object then some c.object else none] }
  else { w with parcels := w.parcels ++ [none] }

/-- The number of owners of the resource of a userdata. -/
def owners (w : Custody) (a : Nat) : Nat :=
  (if w.inPlace a then 1 else 0) + w.parcels.count (some a)

/-- A call changes the owner, not how many there are. -/
theorem owners_call (w : Custody) (c : Marshal.Call) (a : Nat) :
    (w.call c).owners a = w.owners a := by
  unfold call
  by_cases hname : c.name = "__wrap"
  · rw [if_pos hname]
    by_cases ha : a = c.object
    · subst ha
      cases hin : w.inPlace c.object <;> simp [owners, hin, List.count_append, Nat.add_comm]
    · have hne : c.object ≠ a := Ne.symm ha
      cases w.inPlace c.object <;>
        simp [owners, List.count_append, Function.update_of_ne ha, hne]
  · rw [if_neg hname]
    simp [owners, List.count_append]

/-- A call leaves a resource in place, or is the one that takes it. -/
theorem inPlace_call (w : Custody) (c : Marshal.Call) (a : Nat) :
    (w.call c).inPlace a = true ↔ w.inPlace a = true ∧ ¬ (c.name = "__wrap" ∧ c.object = a) := by
  unfold call
  by_cases hname : c.name = "__wrap"
  · rw [if_pos hname]
    by_cases ha : c.object = a
    · subst ha
      simp [hname]
    · simp [hname, ha, Function.update_of_ne (Ne.symm ha)]
  · rw [if_neg hname]
    simp [hname]

end Custody

/-- Who has what after some calls. -/
def custody (cs : List Marshal.Call) : Custody := cs.foldl .call .start

/-- **Every resource has one owner**, after any calls. -/
theorem owners_custody (cs : List Marshal.Call) (a : Nat) : (custody cs).owners a = 1 := by
  have hrun : ∀ (cs : List Marshal.Call) (w : Custody),
      (cs.foldl .call w).owners a = w.owners a := by
    intro cs
    induction cs with
    | nil => exact fun _ ↦ rfl
    | cons c cs ih => exact fun w ↦ (ih (w.call c)).trans (w.owners_call c a)
  exact hrun cs .start

/-- A resource is where it was unless the hook of its userdata was called. -/
theorem inPlace_custody (cs : List Marshal.Call) (a : Nat) :
    (custody cs).inPlace a = true ↔ ¬ WrapCalled cs a := by
  have hrun : ∀ (cs : List Marshal.Call) (w : Custody),
      (cs.foldl .call w).inPlace a = true ↔ w.inPlace a = true ∧ ¬ WrapCalled cs a := by
    intro cs
    induction cs with
    | nil => simp [WrapCalled]
    | cons c cs ih =>
        intro w
        rw [List.foldl_cons, ih, w.inPlace_call]
        simp [WrapCalled, and_assoc]
  exact (hrun cs .start).trans (and_iff_right rfl)

/-! ## The calls of a send -/

variable (S : Sender)

/-- The calls for the arguments in order; `f` is how one of them is copied. -/
def callsArgs (f : Value → Heap → Xfer (Element × Heap)) : List Value → Heap → List Marshal.Call
  | [], _ => []
  | v :: vs, h => callsValue S.hooks S.lua52 false S.depth v { heap := h } ++
      match f v h with
      | .ok (_, h) => callsArgs f vs h
      | _ => []

/-- The calls of `emmit_remote_sync`. -/
def callsRemote (args : List Value) : List Marshal.Call :=
  callsValue S.hooks S.lua52 true S.depth (.object S.heap.length)
    { heap := S.heap ++ [.table { entries := arrayEntries args }] }

/-- The calls of `emmit`. -/
def callsEmmit (decodes : List UInt8 → Bool) (k : State Element) (dst : StageId)
    (args : List Value) (c : Creation) : List Marshal.Call :=
  if !k.graph.isLocal dst then callsRemote S args
  else
    match (k.instanceAquire dst c).2 with
    | none => callsArgs S (copyElement S) args S.heap
    | some _ => callsArgs S (fun v h ↦ copyElement S v h >>= arrive decodes) args S.heap

/-- An argument is, or holds at any depth, the userdata `b`, which has a resource. -/
def Carries (args : List Value) (b : Nat) : Prop :=
  ∃ a, .object a ∈ args ∧ a < S.heap.length ∧
    Relation.ReflTransGen (Inside S.lua52 S.heap) a b ∧ Wrapped S.heap b

variable {S}

/-- **Arguments that are copied have given up everything they carry.** -/
theorem wrapCalled_of_copyArgs {f : Value → Heap → Xfer (Element × Heap)}
    (hf : ∀ {v h r}, f v h = .ok r → copyElement S v h = .ok r) {b : Nat} :
    ∀ {args : List Value} {h : Heap} {es : List Element}, Carries S args b →
      (∃ new, h = S.heap ++ new) → copyArgs f args h = .ok es →
      WrapCalled (callsArgs S f args h) b
  | [], _, _, ⟨_, hm, _⟩, _, _ => absurd hm List.not_mem_nil
  | v :: vs, h, es, ⟨a, hm, ha, hab, hb⟩, ⟨new, hnew⟩, hr => by
      obtain ⟨⟨e, h₁⟩, he, hr⟩ := Xfer.bind_eq_ok.1 hr
      obtain ⟨es', hes, -⟩ := Xfer.bind_eq_ok.1 hr
      simp only [callsArgs, he]
      rcases List.mem_cons.1 hm with rfl | hm
      · -- this argument holds it
        refine WrapCalled.mono ?_ fun c ↦ List.mem_append_left _
        have hlt : a < h.length := by
          rw [hnew, List.length_append]
          exact Nat.lt_add_right _ ha
        obtain ⟨r, hr, hm⟩ := Xfer.bind_eq_ok.1 (hf he)
        simp only [copyEventElement] at hr
        split at hr
        · cases hr
          cases hm
        · obtain ⟨_, hmar, -⟩ := Xfer.bind_eq_ok.1 hr
          refine marEncode_wrapCalled hmar hlt ?_ ?_
          · rw [hnew]
            exact reaches_append new hab
          · rw [hnew]
            exact hb.append new
        · rename_i hnone
          rw [List.getElem?_eq_none_iff] at hnone
          exact absurd hlt (Nat.not_lt.2 hnone)
      · obtain ⟨new', rfl⟩ := copyElement_heap (hf he)
        refine WrapCalled.mono ?_ fun c ↦ List.mem_append_right _
        exact wrapCalled_of_copyArgs hf ⟨a, hm, ha, hab, hb⟩
          ⟨new ++ new', by rw [hnew, List.append_assoc]⟩ hes

/-- To another process nothing is given up. -/
theorem not_wrapCalled_remote (args : List Value) (a : Nat) :
    ¬ WrapCalled (callsRemote S args) a := by
  rintro ⟨c, hc, hname, -⟩
  exact callsValue_noWrap S.hooks S.lua52 S.depth _ _ c hc hname

/-! ## The parcels of an event -/

/-- The parcels in an element. -/
def Element.Holds : Element → List Parcel → Prop
  | .encoded _ b, ps => ∃ c : Code, c.Fits ∧ b = 0x8e :: c.print ∧ ps = c.parcels
  | _, ps => ps = []

/-- The parcels in an event. -/
def Holds (es : List Element) (ps : List Parcel) : Prop :=
  ∃ pss, Forall₂ Element.Holds es pss ∧ ps = pss.flatten

/-- The elements of an event are restored in order, and the functions `os` are called. -/
inductive Restored (L : Marshal.Lua) (depth : Nat) : List Element → Heap → List Opening → Prop
  | nil {h} : Restored L depth [] h []
  | scalar {e es h os} (he : ∀ t b, e ≠ .encoded t b) (hes : Restored L depth es h os) :
      Restored L depth (e :: es) h os
  | encoded {t} {c : Code} {v es h h' os} (hf : c.Fits)
      (hd : marDecode L depth (0x8e :: c.print) h = .ok (v, h'))
      (hes : Restored L depth es h' os) :
      Restored L depth (.encoded t (0x8e :: c.print) :: es) h (c.openings L { heap := h } ++ os)

/-- One argument. -/
theorem holds_of_copyElement {v : Value} {h h' : Heap} {e : Element}
    (hr : copyElement S v h = .ok (e, h')) :
    ∃ ps, e.Holds ps ∧ Forall₂ (Call.Sends S.hooks S.lua52 false)
      (callsValue S.hooks S.lua52 false S.depth v { heap := h }) ps := by
  obtain ⟨r, hr, hm⟩ := Xfer.bind_eq_ok.1 hr
  cases r with
  | none => cases hm
  | some r =>
      obtain rfl := Xfer.ok.inj hm
      cases v with
      | nil | boolean | number | string | lightuserdata =>
          cases hr
          refine ⟨[], rfl, ?_⟩
          cases S.depth <;> exact .nil
      | object a =>
          simp only [copyEventElement] at hr
          split at hr
          · cases hr
          · obtain ⟨⟨bs, h₁⟩, he, hr⟩ := Xfer.bind_eq_ok.1 hr
            cases hr
            obtain ⟨c, st', hc, hf, hd, rfl, -⟩ := marEncode_eq_ok_iff.1 he
            exact ⟨c.parcels, ⟨c, hf, rfl, rfl⟩, hc.sends hf hd⟩
          · rename_i hnone
            cases hr
            refine ⟨[], rfl, ?_⟩
            cases S.depth with
            | zero => exact .nil
            | succ depth =>
                simp only [callsValue, hnone]
                exact .nil

/-- An event that was copied has the parcels of the calls that were made for it. -/
theorem holds_of_copyArgs {f : Value → Heap → Xfer (Element × Heap)}
    (hf : ∀ {v h r}, f v h = .ok r → copyElement S v h = .ok r) :
    ∀ {args : List Value} {h : Heap} {es : List Element}, copyArgs f args h = .ok es →
      ∃ ps, Holds es ps ∧
        Forall₂ (Call.Sends S.hooks S.lua52 false) (callsArgs S f args h) ps
  | [], _, _, hr => by
      cases hr
      exact ⟨[], ⟨[], .nil, rfl⟩, .nil⟩
  | v :: vs, h, es, hr => by
      obtain ⟨⟨e, h₁⟩, he, hr⟩ := Xfer.bind_eq_ok.1 hr
      obtain ⟨es', hes, hr⟩ := Xfer.bind_eq_ok.1 hr
      cases hr
      obtain ⟨ps, hps, hsends⟩ := holds_of_copyElement (hf he)
      obtain ⟨_, ⟨pss, hpss, rfl⟩, hsends'⟩ := holds_of_copyArgs hf hes
      refine ⟨ps ++ pss.flatten, ⟨ps :: pss, .cons hps hpss, rfl⟩, ?_⟩
      simp only [callsArgs, he]
      exact rel_append hsends hsends'

/-- **An event that is restored has its parcels opened**, each of them once. -/
theorem Restored.opensAll {L : Marshal.Lua} {depth : Nat} {es : List Element} {h : Heap}
    {os : List Opening} {ps : List Parcel} (hr : Restored L depth es h os) (hh : Holds es ps) :
    OpensAll L os ps := by
  induction hr generalizing ps with
  | nil =>
      obtain ⟨pss, hpss, rfl⟩ := hh
      cases hpss
      exact ⟨[], .refl _, .nil⟩
  | @scalar e es h os he hes ih =>
      obtain ⟨_, hpss, rfl⟩ := hh
      cases hpss with
      | @cons _ ps' _ pss hp hps =>
          have hnone : ps' = [] := by
            cases e with
            | encoded t b => exact absurd rfl (he t b)
            | nil | boolean | number | string | lightuserdata => exact hp
          subst hnone
          exact ih ⟨pss, hps, rfl⟩
  | @encoded t c v es h h' os hf hd hes ih =>
      obtain ⟨_, hpss, rfl⟩ := hh
      cases hpss with
      | @cons _ ps' _ pss hp hps =>
          obtain ⟨c', hf', hb, rfl⟩ := hp
          -- no two trees have the same bytes
          obtain ⟨rfl, -⟩ := c.print_append_inj c' [] [] hf hf' (by simpa using hb)
          rw [← List.append_nil c.print, marDecode_print_iff hf] at hd
          obtain ⟨-, _, hv⟩ := hd
          exact (c.opens hv).append (ih ⟨pss, hps, rfl⟩)

/-! ## What a send does with the resources -/

/-- The kernel has the event: at the end of the queue of the stage, or on the stack of the
instance that was acquired for it, which is queued. -/
def Taken (k k' : State Element) (dst : StageId) (c : Creation) (es : List Element) : Prop :=
  match (k.instanceAquire dst c).2 with
  | none => (k'.eventQueues dst).items = (k.eventQueues dst).items ++ [es]
  | some i => some i ∈ k'.readyQueue.items ∧ State.callArgs (k'.inst i) = es.map .value

/-- **The event has the resources**: it has a parcel for every call of a hook, with the
function that the hook returned; whoever restores it calls each of these functions once; and
the resource of everything that the arguments carry has left the sender, and is in exactly one
of the parcels. -/
structure HandedOver (S : Sender) (args : List Value) (calls : List Marshal.Call)
    (es : List Element) (ps : List Parcel) : Prop where
  holds : Holds es ps
  sends : Forall₂ (Call.Sends S.hooks S.lua52 false) calls ps
  opens : ∀ (L : Marshal.Lua) (depth : Nat) (h : Heap) (os : List Opening),
    Restored L depth es h os → OpensAll L os ps
  left : ∀ a, Carries S args a → (custody calls).inPlace a = false ∧
    (custody calls).parcels.count (some a) = 1

/-- **A send hands resources over, or leaves them.**  Refused, it has taken no resource out
of any userdata of the sender.  Accepted, the receiving side has everything that the arguments
carry, and nobody else. -/
structure Handover (S : Sender) (k : State Element) (dst : StageId) (args : List Value)
    (c : Creation) (r : State Element × Kernel.Sent) (calls : List Marshal.Call) : Prop where
  refused : ∀ m, r.2 = .refused m → ∀ a, (custody calls).inPlace a = true
  accepted : r.2 = .yes → ∃ es ps, Taken k r.1 dst c es ∧ HandedOver S args calls es ps

/-- What `emmit` does to a list of arguments. -/
def EmmitHandsOver (S : Sender) (decodes : List UInt8 → Bool) (k : State Element)
    (con : ConnectorId) (dst : StageId) (args : List Value) (c : Creation)
    (reply : Except String Unit) : Prop :=
  Handover S k dst args c (k.emmit (luaTransfer S decodes) con dst args c reply)
    (callsEmmit S decodes k dst args c)

section

variable {k : State Element} {dst : StageId} {args : List Value} {c : Creation}
  {decodes : List UInt8 → Bool} {con : ConnectorId} {reply : Except String Unit}

/-- A send to another process hands nothing over, so it must not be accepted. -/
theorem handsOver_remote_iff (hloc : k.graph.isLocal dst = false) {b : Nat}
    (hb : Carries S args b) : EmmitHandsOver S decodes k con dst args c reply ↔
      ¬ ((∃ bs, encodeArgs S args = .ok bs) ∧ reply = .ok ()) := by
  have hplace : ∀ a, (custody (callsEmmit S decodes k dst args c)).inPlace a = true := fun a ↦ by
    rw [callsEmmit, hloc, inPlace_custody]
    exact not_wrapCalled_remote args a
  have hyes : (k.emmit (luaTransfer S decodes) con dst args c reply).2 = .yes ↔
      (∃ bs, encodeArgs S args = .ok bs) ∧ reply = .ok () := by
    have hremote : (luaTransfer S decodes).remote args = encodeArgs S args := rfl
    simp only [State.emmit, hloc, Bool.not_false, if_true, State.emmitRemoteSync, hremote]
    cases encodeArgs S args with
    | raised m | crash => simp
    | ok bs => cases reply <;> simp
  rw [← hyes]
  constructor
  · intro hh hr
    obtain ⟨es, ps, -, hho⟩ := hh.accepted hr
    have hleft := (hho.left b hb).1
    rw [hplace] at hleft
    cases hleft
  · exact fun hr ↦ ⟨fun _ _ ↦ hplace, fun h ↦ absurd h hr⟩

/-- What was copied into an instance was copied. -/
theorem copyElement_of_arrive {v : Value} {h : Heap} {r : Element × Heap}
    (hr : copyElement S v h >>= arrive decodes = .ok r) : copyElement S v h = .ok r := by
  obtain ⟨r', he, hr⟩ := Xfer.bind_eq_ok.1 hr
  rw [arrive_eq_ok hr]
  exact he

/-- An event has taken along what its arguments carry. -/
theorem handedOver_of_copyArgs {f : Value → Heap → Xfer (Element × Heap)} {es : List Element}
    (hf : ∀ {v h r}, f v h = .ok r → copyElement S v h = .ok r)
    (hes : copyArgs f args S.heap = .ok es) :
    ∃ ps, HandedOver S args (callsArgs S f args S.heap) es ps := by
  obtain ⟨ps, hps, hsends⟩ := holds_of_copyArgs hf hes
  refine ⟨ps, hps, hsends, fun L depth h os hr ↦ hr.opensAll hps, fun a ha ↦ ?_⟩
  have hgone : (custody (callsArgs S f args S.heap)).inPlace a = false := by
    rw [← Bool.not_eq_true, inPlace_custody, not_not]
    exact wrapCalled_of_copyArgs hf ha ⟨[], by simp⟩ hes
  have howner := owners_custody (callsArgs S f args S.heap) a
  rw [Custody.owners, hgone] at howner
  exact ⟨hgone, by simpa using howner⟩

/-- The values that `lua_pcall` finds are the ones that were loaded. -/
theorem callArgs_load {i : InstId} {es : List Element} :
    State.callArgs ((k.load i es).inst i) = es.map .value := by
  have hlen : (k.inst i).stack.length + (es.length + 1) - es.length =
      (k.inst i).stack.length + 1 := by omega
  simp [State.callArgs, State.modifyInst, hlen, List.drop_append]

/-- With an instance for it, an event is not refused. -/
theorem handsOver_direct (hloc : k.graph.isLocal dst = true) (hden : ¬ k.Denied dst c) :
    EmmitHandsOver S decodes k con dst args c reply := by
  rw [denied_iff] at hden
  unfold EmmitHandsOver State.emmit callsEmmit
  simp only [hloc, Bool.not_true, Bool.false_eq_true, if_false]
  rcases ha : k.instanceAquire dst c with ⟨k₁, _ | i⟩
  · rw [ha] at hden
    exact absurd rfl hden
  · simp only
    cases hx : (luaTransfer S decodes).copy args with
    | raised m | crash =>
        constructor
        · intro m h
          cases h
        · intro h
          cases h
    | ok es =>
        constructor
        · intro m h
          cases h
        · intro _
          obtain ⟨ps, hps⟩ := handedOver_of_copyArgs copyElement_of_arrive hx
          refine ⟨es, ps, ?_, hps⟩
          simp only [Taken, ha]
          exact ⟨mem_append_right _ mem_cons_self, callArgs_load⟩

/-- Without one, it is a full queue that keeps what the event has taken along. -/
theorem handsOver_denied_iff (hloc : k.graph.isLocal dst = true) (hden : k.Denied dst c) {b : Nat}
    (hb : Carries S args b) : EmmitHandsOver S decodes k con dst args c reply ↔
      ¬ ((k.eventQueues dst).full k.fullTest = true ∧ ∃ e, extractEvent S args = .ok e) := by
  rw [denied_iff] at hden
  unfold EmmitHandsOver State.emmit callsEmmit
  simp only [hloc, Bool.not_true, Bool.false_eq_true, if_false]
  rcases ha : k.instanceAquire dst c with ⟨k₁, _ | i⟩
  · have hun := untouched_of_aquire ha
    simp only
    have hextract : (luaTransfer S decodes).extract args = extractEvent S args := rfl
    rw [hextract]
    cases hx : extractEvent S args with
    | raised m | crash =>
        refine iff_of_true ⟨fun m h ↦ ?_, fun h ↦ ?_⟩ (by simp)
        · cases h
        · cases h
    | ok es =>
        rw [← hun.events, ← hun.fullTest]
        simp only [State.instanceTryPushPendingEvent, Xfer.ok.injEq, exists_eq', and_true]
        cases hp : k₁.tryPushEvent dst es with
        | none =>
            -- the hook of `b` was called, and the event is forgotten
            have hfull := State.tryPushEvent_eq_none.1 hp
            refine iff_of_false (fun h ↦ ?_) (not_not.2 hfull)
            have hin := h.refused _ rfl b
            rw [inPlace_custody] at hin
            exact hin (wrapCalled_of_copyArgs id hb ⟨[], by simp⟩ hx)
        | some k₂ =>
            obtain ⟨hroom, rfl⟩ := State.tryPushEvent_eq_some.1 hp
            refine iff_of_true ⟨fun m h ↦ ?_, fun _ ↦ ?_⟩ (by simp [hroom])
            · cases h
            · obtain ⟨ps, hps⟩ := handedOver_of_copyArgs id hx
              refine ⟨es, ps, ?_, hps⟩
              simp [Taken, ha, ← hun.events, Fifo.append]
  · rw [ha] at hden
    cases hden

/-- **When a send hands its resources over or leaves them.**  For every sender whose
arguments carry a userdata with a `__wrap` hook, nested anywhere, every destination in
every state, and whatever the other process answers: it does so unless the event is extracted
and then finds the pending queue full, or another process accepts it. -/
theorem handover_iff (S : Sender) (decodes : List UInt8 → Bool) (k : State Element)
    (con : ConnectorId) (dst : StageId) (args : List Value) (c : Creation)
    (reply : Except String Unit) {b : Nat} (hb : Carries S args b) :
    EmmitHandsOver S decodes k con dst args c reply ↔
      ¬ (k.graph.isLocal dst = true ∧ k.Denied dst c ∧
        (k.eventQueues dst).full k.fullTest = true ∧ ∃ e, extractEvent S args = .ok e) ∧
      ¬ (k.graph.isLocal dst = false ∧ (∃ bs, encodeArgs S args = .ok bs) ∧ reply = .ok ()) := by
  cases hloc : k.graph.isLocal dst with
  | false =>
      rw [handsOver_remote_iff hloc hb]
      simp
  | true =>
      by_cases hden : k.Denied dst c
      · rw [handsOver_denied_iff hloc hden hb]
        simp [hden]
      · exact iff_of_true (handsOver_direct hloc hden) (by simp [hden])

end

/-! ## A file and a full queue -/

/-- A sender with a file in a table. -/
def fileSender : Sender where
  hooks _ _ h := .ok (.object h.length, [.function { what := .lua }])
  lua52 := true
  depth := 9
  heap := [.table { entries := [(.ofNat 1, .object 1)] }, .userdata { wrap := some .nil }]

/-- The table carries the file. -/
theorem carries_fileSender : Carries fileSender [.object 0] 1 := by
  refine ⟨0, List.mem_cons_self, by decide, .single ⟨by decide, rfl, ?_⟩, _, _, rfl, rfl⟩
  exact ⟨_, List.mem_cons_self, .inr rfl⟩

/-- A stage that can have no instance, and whose pending queue has room for `n` events. -/
def closedStage (n : Int) : State Element := .instanceInit (.single false) .exactly 0 n

/-- **The file is gone**: the event is extracted, and the queue has no room for it. -/
theorem handover_fails :
    ¬ ∀ (S : Sender) (decodes : List UInt8 → Bool) (k : State Element) (con : ConnectorId)
      (dst : StageId) (args : List Value) (c : Creation) (reply : Except String Unit) (b : Nat),
      Carries S args b → EmmitHandsOver S decodes k con dst args c reply := by
  intro h
  have hx := h fileSender (fun _ ↦ true) (closedStage 0) (-1) 0 [.object 0] .ok (.ok ()) 1
    carries_fileSender
  refine absurd hx ?_
  rw [handsOver_denied_iff rfl (by decide) carries_fileSender, not_not]
  exact ⟨by decide, _, rfl⟩

/-- `handover_iff` for the same event when the queue has room. -/
theorem handover_fileSender :
    EmmitHandsOver fileSender (fun _ ↦ true) (closedStage 1) (-1) 0 [.object 0] .ok (.ok ()) := by
  refine (handover_iff fileSender (fun _ ↦ true) (closedStage 1) (-1) 0 [.object 0] .ok (.ok ())
    carries_fileSender).2 ⟨?_, ?_⟩
  · rintro ⟨-, -, hfull, -⟩
    exact absurd hfull (by decide)
  · rintro ⟨hloc, -⟩
    cases hloc

end Leda.Event
