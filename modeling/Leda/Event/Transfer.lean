import Leda.Kernel.Scheduler
import Leda.Marshal.Encode

/-!
# The arguments of a send

How `event.c` takes the arguments of a send from the sender's Lua state.  On the direct
route, `copy_values_directly` pushes them into the state of the instance; on the queued
route, `extract_event_from_lua_state` makes an event of them; for another process,
`emmit_remote_sync` and `emmit_remote` marshal a table of them.  `luaTransfer` is the
three together.

What they agree on is the main result: **arguments that hold something that cannot be
sent, at any depth, are not sent** on any route.  Which way they are not sent differs: on
the direct route the error is raised when the instance has been acquired.
-/

namespace Leda.Event

open Leda.Lib Leda.Lua Leda.Marshal Leda.Kernel

/-- `struct _element`; `encoded` is a function, table or userdata. -/
inductive Element
  | nil
  | boolean (b : Bool)
  | number (d : BitVec 64)
  | string (s : List UInt8)
  | lightuserdata (p : BitVec 64)
  | encoded (type : Nat) (b : List UInt8)
deriving Repr, DecidableEq

/-- A sender: its Lua state. -/
structure Sender where
  hooks : Hooks
  lua52 : Bool
  /-- The levels of calls that there is room for: on its C stack, and on the stack of
  `mar_encode`, which takes four slots at each level and never asks for more. -/
  depth : Nat
  heap : Heap

variable (S : Sender)

/-- `copy_event_element`; `none` for a type it does not know.  The same switch is in
`copy_values_directly`. -/
def copyEventElement : Value → Heap → Xfer (Option (Element × Heap))
  | .nil, h => .ok (some (.nil, h))
  | .boolean b, h => .ok (some (.boolean b, h))
  | .number d, h => .ok (some (.number d, h))
  | .string s, h => .ok (some (.string s, h))
  | .lightuserdata p, h => .ok (some (.lightuserdata p, h))
  | .object a, h =>
      match h[a]? with
      | some .thread => .ok none
      | some o => do
          let (b, h) ← marEncode S.hooks S.lua52 false S.depth (.object a) h
          .ok (some (.encoded o.type b, h))
      | none => .ok (some (.nil, h))

/-- One argument: only coroutines are not known. -/
def copyElement (v : Value) (h : Heap) : Xfer (Element × Heap) := do
  match ← copyEventElement S v h with
  | some r => .ok r
  | none => .raised "Value type 'thread' not supported"

/-- The arguments in order. -/
def copyArgs (f : Value → Heap → Xfer (Element × Heap)) :
    List Value → Heap → Xfer (List Element)
  | [], _ => .ok []
  | v :: vs, h => do
      let (e, h) ← f v h
      let es ← copyArgs f vs h
      .ok (e :: es)

/-- `extract_event_from_lua_state`. -/
def extractEvent (args : List Value) : Xfer (List Element) := copyArgs (copyElement S) args S.heap

/-- What was encoded is decoded at once in the Lua state of the instance.  No protected
call is in progress there: an error of `mar_decode` ends the process. -/
def arrive (decodes : List UInt8 → Bool) (r : Element × Heap) : Xfer (Element × Heap) :=
  match r.1 with
  | .encoded _ b => if decodes b then .ok r else .crash
  | _ => .ok r

/-- `copy_values_directly`; `decodes` says for which bytes `mar_decode` raises no error. -/
def copyValuesDirectly (decodes : List UInt8 → Bool) (args : List Value) : Xfer (List Element) :=
  copyArgs (fun v h ↦ copyElement S v h >>= arrive decodes) args S.heap

/-- The encoding of `emmit_remote_sync` and `emmit_remote`: a table of the arguments,
with wrappers not permitted. -/
def encodeArgs (args : List Value) : Xfer (List UInt8) := do
  let (b, _) ← marEncode S.hooks S.lua52 true S.depth (.object S.heap.length)
    (S.heap ++ [.table { entries := arrayEntries args }])
  .ok b

/-- The three routes. -/
def luaTransfer (decodes : List UInt8 → Bool) : Transfer Value Element where
  copy := copyValuesDirectly S decodes
  extract := extractEvent S
  remote := encodeArgs S

section

variable {S} {h : Heap} {v : Value} {a b : Nat}

/-- The heap only grows. -/
theorem copyElement_heap {e : Element} {h' : Heap} (hr : copyElement S v h = .ok (e, h')) :
    ∃ new, h' = h ++ new := by
  obtain ⟨r, hr, hm⟩ := Xfer.bind_eq_ok.1 hr
  cases r with
  | none => cases hm
  | some r =>
      obtain rfl := Xfer.ok.inj hm
      cases v with
      | nil | boolean | number | string | lightuserdata =>
          cases hr
          exact ⟨[], by simp⟩
      | object a =>
          simp only [copyEventElement] at hr
          split at hr
          · cases hr
          · obtain ⟨⟨bs, h₁⟩, he, hr⟩ := Xfer.bind_eq_ok.1 hr
            cases hr
            obtain ⟨⟨bs', st⟩, hv, he⟩ := Xfer.bind_eq_ok.1 he
            cases he
            exact (encodeValue_explores S.hooks S.lua52 false h S.depth _ _ _ _
              ⟨[], by simp⟩ hv).heap
          · cases hr
            exact ⟨[], by simp⟩

theorem arrive_eq_ok {decodes : List UInt8 → Bool} {r r' : Element × Heap}
    (h : arrive decodes r = .ok r') : r' = r := by
  unfold arrive at h
  split at h
  · split at h
    · exact (Xfer.ok.inj h).symm
    · cases h
  · exact (Xfer.ok.inj h).symm

/-- What is inside an object stays there when others are allocated. -/
theorem reaches_append {lua52 : Bool} (new : List Object)
    (hab : Relation.ReflTransGen (Inside lua52 h) a b) :
    Relation.ReflTransGen (Inside lua52 (h ++ new)) a b :=
  hab.lift id fun _ _ hi ↦ hi.append new

/-- An argument that holds something that cannot be sent is not copied. -/
theorem copyElement_spoiled {r : Element × Heap} (ha : a < h.length)
    (hab : Relation.ReflTransGen (Inside S.lua52 h) a b) (hb : Unsendable h b) :
    copyElement S (.object a) h ≠ .ok r := by
  intro hr
  obtain ⟨o, ho, hm⟩ := Xfer.bind_eq_ok.1 hr
  simp only [copyEventElement] at ho
  split at ho
  · cases ho
    cases hm
  · obtain ⟨_, he, -⟩ := Xfer.bind_eq_ok.1 ho
    exact marEncode_good he ha hab hb
  · rename_i hnone
    rw [List.getElem?_eq_none_iff] at hnone
    omega

/-- Copying the arguments stops at it at the latest. -/
theorem copyArgs_spoiled {f : Value → Heap → Xfer (Element × Heap)}
    (hf : ∀ {v h r}, f v h = .ok r → copyElement S v h = .ok r) (ha : a < S.heap.length)
    (hab : Relation.ReflTransGen (Inside S.lua52 S.heap) a b) (hb : Unsendable S.heap b) :
    ∀ {args : List Value} {h : Heap}, .object a ∈ args → (∃ new, h = S.heap ++ new) →
      ∀ es, copyArgs f args h ≠ .ok es
  | v :: vs, h, hm, ⟨new, hnew⟩, es, hr => by
      obtain ⟨⟨e, h₁⟩, he, hr⟩ := Xfer.bind_eq_ok.1 hr
      obtain ⟨es', hes, -⟩ := Xfer.bind_eq_ok.1 hr
      rcases List.mem_cons.1 hm with rfl | hm
      · refine copyElement_spoiled (S := S) (h := h) (b := b) ?_ ?_ ?_ (hf he)
        · rw [hnew, List.length_append]
          omega
        · rw [hnew]
          exact reaches_append new hab
        · rw [hnew]
          exact hb.append new
      · obtain ⟨new', rfl⟩ := copyElement_heap (hf he)
        exact copyArgs_spoiled hf ha hab hb hm
          ⟨new ++ new', by rw [hnew, List.append_assoc]⟩ es' hes

/-- **Spoiled arguments are not sent**, on any of the three routes. -/
theorem luaTransfer_spoiled (decodes : List UInt8 → Bool) {args : List Value}
    (hs : Spoiled S.lua52 S.heap args) :
    (∀ e, (luaTransfer S decodes).copy args ≠ .ok e) ∧
    (∀ e, (luaTransfer S decodes).extract args ≠ .ok e) ∧
    ∀ b, (luaTransfer S decodes).remote args ≠ .ok b := by
  obtain ⟨a, b, hm, ha, hab, hb⟩ := hs
  refine ⟨copyArgs_spoiled (fun {v h r} hr ↦ ?_) ha hab hb hm ⟨[], by simp⟩,
    copyArgs_spoiled id ha hab hb hm ⟨[], by simp⟩, fun bs hr ↦ ?_⟩
  · obtain ⟨r', he, hr⟩ := Xfer.bind_eq_ok.1 hr
    rw [arrive_eq_ok hr]
    exact he
  · obtain ⟨_, he, -⟩ := Xfer.bind_eq_ok.1 hr
    -- the table of the arguments leads to the argument
    have hin : Inside S.lua52 (S.heap ++ [.table { entries := arrayEntries args }])
        S.heap.length a := by
      refine ⟨by simp; omega, ?_⟩
      obtain ⟨k, hk⟩ := mem_arrayEntries hm (by simp)
      simp only [List.getElem?_concat_length]
      exact ⟨trivial, _, hk, .inr rfl⟩
    exact marEncode_good he (by simp) (.head hin (reaches_append _ hab)) (hb.append _)

/-- Without hooks, and with enough room, one argument is copied or raises; the heap stays. -/
theorem copyElement_returns (hf : HookFree S.heap) (hd : S.heap.length < S.depth) (v : Value) :
    copyElement S v S.heap ≠ .crash ∧
      ∀ e h, copyElement S v S.heap = .ok (e, h) → h = S.heap := by
  suffices h : copyEventElement S v S.heap ≠ .crash ∧
      ∀ e h, copyEventElement S v S.heap = .ok (some (e, h)) → h = S.heap by
    refine ⟨fun hc ↦ ?_, fun e h' hr ↦ ?_⟩
    · rcases Xfer.bind_eq_crash.1 hc with hc | ⟨o, ho, hc⟩
      · exact h.1 hc
      · cases o <;> cases hc
    · obtain ⟨o, ho, hr⟩ := Xfer.bind_eq_ok.1 hr
      cases o with
      | none => cases hr
      | some r =>
          cases hr
          exact h.2 e h' ho
  cases v with
  | nil | boolean | number | string | lightuserdata =>
      refine ⟨fun hc ↦ ?_, fun e h hr ↦ ?_⟩
      · cases hc
      · cases hr
        rfl
  | object a =>
      simp only [copyEventElement]
      split
      · refine ⟨fun hc ↦ ?_, fun e h hr ↦ ?_⟩
        · cases hc
        · cases hr
      · refine ⟨fun hc ↦ ?_, fun e h hr ↦ ?_⟩
        · rcases Xfer.bind_eq_crash.1 hc with hc | ⟨_, _, hc⟩
          · exact marEncode_returns hf hd _ hc
          · cases hc
        · obtain ⟨⟨bs, h₁⟩, he, hr⟩ := Xfer.bind_eq_ok.1 hr
          cases hr
          exact marEncode_heap hf hd he
      · refine ⟨fun hc ↦ ?_, fun e h hr ↦ ?_⟩
        · cases hc
        · cases hr
          rfl

theorem copyArgs_returns (hf : HookFree S.heap) (hd : S.heap.length < S.depth) :
    ∀ args, copyArgs (copyElement S) args S.heap ≠ .crash
  | [] => fun hc ↦ by cases hc
  | v :: vs => fun hc ↦ by
      obtain ⟨h₁, h₂⟩ := copyElement_returns hf hd v
      rcases Xfer.bind_eq_crash.1 hc with hc | ⟨⟨e, h⟩, he, hc⟩
      · exact h₁ hc
      obtain rfl := h₂ e h he
      rcases Xfer.bind_eq_crash.1 hc with hc | ⟨_, _, hc⟩
      · exact copyArgs_returns hf hd vs hc
      · cases hc

/-- **Arguments without hooks are sent or refused**: with room for two levels more than
there are objects, neither the queued nor the remote route crashes. -/
theorem luaTransfer_returns (decodes : List UInt8 → Bool) (hf : HookFree S.heap)
    (hd : S.heap.length + 1 < S.depth) (args : List Value) :
    (luaTransfer S decodes).extract args ≠ .crash ∧
      (luaTransfer S decodes).remote args ≠ .crash := by
  refine ⟨copyArgs_returns hf (by omega) args, fun hc ↦ ?_⟩
  have hf' : HookFree (S.heap ++ [.table { entries := arrayEntries args }]) := fun o ho ↦ by
    rcases List.mem_append.1 ho with ho | ho
    · exact hf o ho
    · obtain rfl := List.mem_singleton.1 ho
      rfl
  rcases Xfer.bind_eq_crash.1 hc with hc | ⟨_, _, hc⟩
  · exact marEncode_returns hf' (by simpa using hd) _ hc
  · cases hc

end

end Leda.Event
