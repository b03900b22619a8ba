import Leda.Marshal.Stack

/-!
# What can be built

`Code.run` makes the calls for a tree, on the stack of `mar_decode` (`machine`).  Here is
when they all go well: `Code.Buildable` follows the tree and asks of every part of it what
its calls need where they are made.  Every push needs a slot.  A key must be one, not `nil`,
which is also what an unknown reference stands for, and not `NaN`, unless a metamethod takes
it.  What is called must return.  Upvalues are taken from the table on top, which is another
value once a function has not had one of them.

`Code.buildable_iff` says that nothing else can go wrong, and `marDecode_eq_ok_iff` that a
message is decoded if and only if it starts with a tree that can be built, whatever is
behind it in memory.
-/

namespace Leda.Marshal

open Leda.Lib Leda.Lua Memory

/-- `lua_settable` goes well: the key is one, or the metamethod returns. -/
def Lua.Accepts (L : Lua) (t k v : Value) (h : Heap) : Prop :=
  match t with
  | .object a =>
    match h[a]? with
    | some (.table x) =>
        if x.newindex.isSome && rawget x.entries k == .nil && (L.lua52 || isKey k) then
          ∃ h', L.setindex t k v h = .ok h'
        else isKey k
    | _ => ∃ h', L.setindex t k v h = .ok h'
  | _ => ∃ h', L.setindex t k v h = .ok h'

namespace LuaState

variable (L : Lua) (room : Nat)

/-- There are as many slots. -/
def Free (n : Nat) (s : LuaState) : Prop := s.stack.length + 2 + n ≤ room

/-- A table is on top. -/
def OnTable (s : LuaState) : Prop :=
  ∃ (a : Nat) (t : Table), s.top = .object a ∧ s.heap[a]? = some (.table t)

/-- The first element of the table on top can be called, and the call returns. -/
def Calls (s : LuaState) : Prop :=
  s.OnTable ∧ s.Free room 1 ∧
    ∀ f, s.rawgeti room 1 = .ok f → ∃ r, L.call f.top s.heap = .ok r

/-- The pair on top can be set in what is below it. -/
def Assigns (s : LuaState) : Prop :=
  ∃ v k t rest, s.stack = v :: k :: t :: rest ∧ L.Accepts t k v s.heap

/-- The rounds that are left of the loop that sets the upvalues go well. -/
def Sets : Nat → Nat → LuaState → Prop
  | _, 0, _ => True
  | i, n + 1, s => s.OnTable ∧ s.Free room 1 ∧ ∀ e, s.rawgeti room i = .ok e →
      (L.lua52 && readsAsMarker e.top → e.Free room 1) ∧
        ∀ u, e.unmark L room = .ok u → Sets (i + 1) n (u.setupvalue i)

end LuaState

mutual

/-- **The calls for a tree go well.** -/
def Code.Buildable (L : Lua) (room : Nat) : Code → LuaState → Prop
  | .table es, s => s.Free room 2 ∧
      ∀ t, (machine L room).openTable s = .ok t → es.Buildable L room t
  | .function _ dump ups, s => s.Free room 2 ∧
      ∀ f, (machine L room).loadFunction dump s = .ok f → f.Free room 1 ∧
        ∀ t, f.newtable room = .ok t → ups.Buildable L room t ∧
          ∀ u, ups.run (machine L room) t = .ok u →
            u.Sets L room 1 (L.lengthOf u.heap u.top)
  | .hook _ es, s => s.Free room 1 ∧
      ∀ t, s.newtable room = .ok t → es.Buildable L room t ∧
        ∀ u, es.run (machine L room) t = .ok u → u.Calls L room
  | _, s => s.Free room 1

/-- **The calls for the pairs of a table go well.** -/
def Codes.Buildable (L : Lua) (room : Nat) : Codes → LuaState → Prop
  | .nil, _ => True
  | .cons k v rest, s => k.Buildable L room s ∧
      ∀ s₁, k.run (machine L room) s = .ok s₁ → v.Buildable L room s₁ ∧
        ∀ s₂, v.run (machine L room) s₁ = .ok s₂ → s₂.Assigns L ∧
          ∀ s₃, s₂.settable L = .ok s₃ → rest.Buildable L room s₃

end

section

variable {L : Lua} {room n i : Nat} {s : LuaState} {h : Heap} {t k v : Value} {σ : Type}

/-- A computation, and what follows it. -/
theorem returns_bind_iff {α β : Type} {x : Xfer α} {f : α → Xfer β} :
    (∃ b, x >>= f = .ok b) ↔ (∃ a, x = .ok a) ∧ ∀ a, x = .ok a → ∃ b, f a = .ok b := by
  constructor
  · rintro ⟨b, hb⟩
    obtain ⟨a, ha, hb⟩ := Xfer.bind_eq_ok.1 hb
    refine ⟨⟨a, ha⟩, fun a' ha' ↦ ?_⟩
    cases ha.symm.trans ha'
    exact ⟨b, hb⟩
  · rintro ⟨⟨a, ha⟩, hf⟩
    obtain ⟨b, hb⟩ := hf a ha
    exact ⟨b, Xfer.bind_eq_ok.2 ⟨a, ha, hb⟩⟩

theorem push_returns_iff : (∃ s', s.push room v = .ok s') ↔ s.Free room 1 := by
  unfold LuaState.push LuaState.Free
  by_cases hroom : s.stack.length + 2 < room
  · simp [hroom, Nat.succ_le_of_lt hroom]
  · simp [hroom, Nat.not_le.2 (Nat.lt_succ_of_le (Nat.not_lt.1 hroom))]

theorem newtable_returns_iff : (∃ s', s.newtable room = .ok s') ↔ s.Free room 1 :=
  push_returns_iff (s := { s with toDec := s.toDec.newtable })

theorem enter_returns_iff : (∃ s', s.enter room = .ok s') ↔ s.Free room 1 := by
  rw [LuaState.enter, returns_bind_iff, push_returns_iff]
  exact ⟨And.left, fun h ↦ ⟨h, fun _ _ ↦ ⟨_, rfl⟩⟩⟩

theorem free_push {s' : LuaState} (hs : s.push room v = .ok s') :
    s'.Free room n ↔ s.Free room (n + 1) := by
  unfold LuaState.push at hs
  split at hs
  · cases hs
    simp only [LuaState.Free, List.length_cons]
    omega
  · cases hs

/-- A push, and a function or table that is entered. -/
theorem push_enter_returns_iff : (∃ s', s.push room v >>= LuaState.enter room = .ok s') ↔
    s.Free room 2 := by
  rw [returns_bind_iff, push_returns_iff]
  constructor
  · rintro ⟨hfree, hall⟩
    obtain ⟨s', hs⟩ := push_returns_iff.2 hfree
    exact (free_push hs).1 (enter_returns_iff.1 (hall s' hs))
  · intro hfree
    have hone : s.Free room 1 := Nat.le_trans (Nat.add_le_add_left (by omega) _) hfree
    exact ⟨hone, fun s' hs ↦ enter_returns_iff.2 ((free_push hs).2 hfree)⟩

theorem openTable_returns_iff :
    (∃ s', (machine L room).openTable s = .ok s') ↔ s.Free room 2 :=
  push_enter_returns_iff (s := { s with toDec := s.toDec.newtable })

theorem loadFunction_returns_iff {dump : List UInt8} :
    (∃ s', (machine L room).loadFunction dump s = .ok s') ↔ s.Free room 2 := by
  change (∃ s', LuaState.load L room dump s >>= LuaState.enter room = .ok s') ↔ _
  unfold LuaState.load
  split
  · rename_i c _
    exact push_enter_returns_iff (s := { s with heap := s.heap ++ [.function c] })
  · exact push_enter_returns_iff

theorem rawgeti_returns_iff : (∃ e, s.rawgeti room n = .ok e) ↔ s.OnTable ∧ s.Free room 1 := by
  unfold LuaState.rawgeti LuaState.OnTable
  cases htop : s.top with
  | object a =>
      cases ho : s.heap[a]? with
      | none => simp [ho]
      | some o =>
          cases o with
          | table t => simp [ho, push_returns_iff]
          | function | userdata | thread => simp [ho]
  | nil | boolean | lightuserdata | number | string => simp

theorem settable_eq_ok_iff {h' : Heap} {a : Nat} : settable h a k v = .ok h' ↔
    isKey k ∧ ∃ t : Table, h[a]? = some (.table t) ∧
      h' = h.set a (.table { t with entries := rawset t.entries k v }) := by
  unfold settable
  cases ho : h[a]? with
  | none => simp
  | some o =>
      cases o with
      | table t =>
          by_cases hk : isKey k = true
          · simp [hk, eq_comm]
          · simp [hk]
      | function | userdata | thread => simp

theorem settableAt_returns_iff : (∃ h', L.settableAt t k v h = .ok h') ↔ L.Accepts t k v h := by
  cases t with
  | object a =>
      cases ho : h[a]? with
      | none => simp only [Lua.settableAt, Lua.Accepts, ho]
      | some o =>
          cases o with
          | table x =>
              simp only [Lua.settableAt, Lua.Accepts, ho]
              split
              · rfl
              · simp [settable_eq_ok_iff, ho]
          | function | userdata | thread => simp only [Lua.settableAt, Lua.Accepts, ho]
  | nil | boolean | lightuserdata | number | string => rfl

theorem settable_returns_iff : (∃ s', s.settable L = .ok s') ↔ s.Assigns L := by
  obtain ⟨d, st⟩ := s
  unfold LuaState.settable LuaState.Assigns
  match st with
  | [] | [_] | [_, _] => simp
  | v :: k :: t :: rest =>
      dsimp only
      rw [returns_bind_iff, settableAt_returns_iff]
      constructor
      · exact fun h ↦ ⟨v, k, t, rest, rfl, h.1⟩
      · rintro ⟨_, _, _, _, hst, h⟩
        cases hst
        exact ⟨h, fun _ _ ↦ ⟨_, rfl⟩⟩

theorem callHook_returns_iff :
    (∃ s', (machine L room).callHook s = .ok s') ↔ s.Calls L room := by
  change (∃ s', LuaState.call L room s >>= LuaState.enter room = .ok s') ↔ _
  rw [returns_bind_iff, LuaState.call, returns_bind_iff, rawgeti_returns_iff, LuaState.Calls]
  constructor
  · rintro ⟨⟨⟨htop, hfree⟩, hcall⟩, -⟩
    refine ⟨htop, hfree, fun f hf ↦ ?_⟩
    obtain ⟨s', hs⟩ := hcall f hf
    obtain ⟨r, hr, -⟩ := Xfer.bind_eq_ok.1 hs
    exact ⟨r, hr⟩
  · rintro ⟨htop, hfree, hcall⟩
    refine ⟨⟨⟨htop, hfree⟩, fun f hf ↦ ?_⟩, fun s' hs ↦ enter_returns_iff.2 ?_⟩
    · obtain ⟨r, hr⟩ := hcall f hf
      exact ⟨_, Xfer.bind_eq_ok.2 ⟨r, hr, rfl⟩⟩
    · obtain ⟨f, -, hs⟩ := Xfer.bind_eq_ok.1 hs
      obtain ⟨r, -, hs⟩ := Xfer.bind_eq_ok.1 hs
      cases hs
      -- the result stands where the table was
      obtain ⟨a, t, htop, -⟩ := htop
      cases hst : s.stack with
      | nil => simp [LuaState.top, hst] at htop
      | cons x rest => simpa [LuaState.Free, LuaState.withTop, hst] using hfree

theorem unmark_returns_iff : (∃ u, s.unmark L room = .ok u) ↔
    (L.lua52 && readsAsMarker s.top → s.Free room 1) := by
  unfold LuaState.unmark
  split
  · rename_i hm
    rw [returns_bind_iff, push_returns_iff]
    exact ⟨fun h _ ↦ h.1, fun h ↦ ⟨h hm, fun _ _ ↦ ⟨_, rfl⟩⟩⟩
  · rename_i hm
    exact ⟨fun _ h ↦ absurd h hm, fun _ ↦ ⟨_, rfl⟩⟩

theorem setupvalues_returns_iff : ∀ (n i : Nat) (s : LuaState),
    (∃ s', LuaState.setupvalues L room i n s = .ok s') ↔ s.Sets L room i n
  | 0, _, s => ⟨fun _ ↦ trivial, fun _ ↦ ⟨s, rfl⟩⟩
  | n + 1, i, s => by
      rw [LuaState.setupvalues, LuaState.Sets, returns_bind_iff, rawgeti_returns_iff, and_assoc]
      simp only [returns_bind_iff, unmark_returns_iff, setupvalues_returns_iff n]

theorem setUpvalues_returns_iff : (∃ s', s.setUpvalues L room = .ok s') ↔
    s.Sets L room 1 (L.lengthOf s.heap s.top) := by
  rw [LuaState.setUpvalues, returns_bind_iff, setupvalues_returns_iff]
  exact ⟨And.left, fun h ↦ ⟨h, fun _ _ ↦ ⟨_, rfl⟩⟩⟩

mutual

/-- **The calls for a tree go well if and only if it can be built.** -/
theorem Code.buildable_iff : ∀ (c : Code) (s : LuaState),
    c.Buildable L room s ↔ ∃ s', c.run (machine L room) s = .ok s'
  | .nil _, _ | .boolean _, _ | .lightuserdata _, _ | .number _, _ | .string _, _ | .ref _ _, _
  | .userdata _, _ => push_returns_iff.symm
  | .table es, s => by
      rw [Code.Buildable, Code.run, returns_bind_iff, openTable_returns_iff]
      simp only [es.buildable_iff]
  | .function _ dump ups, s => by
      rw [Code.Buildable, Code.run, returns_bind_iff, loadFunction_returns_iff]
      simp only [returns_bind_iff, ups.buildable_iff, ← newtable_returns_iff,
        ← setUpvalues_returns_iff]
      rfl
  | .hook _ es, s => by
      rw [Code.Buildable, Code.run, returns_bind_iff, ← newtable_returns_iff]
      simp only [returns_bind_iff, es.buildable_iff, ← callHook_returns_iff]
      rfl

theorem Codes.buildable_iff : ∀ (es : Codes) (s : LuaState),
    es.Buildable L room s ↔ ∃ s', es.run (machine L room) s = .ok s'
  | .nil, s => ⟨fun _ ↦ ⟨s, rfl⟩, fun _ ↦ trivial⟩
  | .cons k v rest, s => by
      rw [Codes.Buildable, Codes.run, returns_bind_iff, k.buildable_iff]
      simp only [returns_bind_iff, v.buildable_iff, rest.buildable_iff, ← settable_returns_iff]
      rfl

end

/-- After the magic byte. -/
theorem Memory.val_marDecode {m : Nat → UInt8} {depth : Nat} {b : UInt8} {p : List UInt8}
    (hm : bytes m 0 (b :: p).length = b :: p) :
    (marDecode m (b :: p).length L room depth h).val =
      if b ≠ 0x8e then .raised "bad magic"
      else if room < 2 then .crash
      else (decodeValue m (machine L room) depth ⟨(b :: p).length, []⟩ 1 { heap := h }).val >>=
        fun r ↦ .ok (r.1.top, r.1.heap) := by
  have hb : bytes m 0 1 = [b] := (bytes_eq_append (b := [b]) (view_start hm).bytes).1
  rw [marDecode, if_neg (by simp), Traced.val_bind, fetch, Traced.val_step, Xfer.ok_bind, hb]
  by_cases ht : b = 0x8e
  · by_cases hroom : room < 2
    · simp [ht, hroom]
    · simp [ht, hroom]
  · simp [ht]

/-- **A message is decoded if and only if it starts with a tree whose calls go well.** -/
theorem Memory.marDecode_eq_ok_iff {m : Nat → UInt8} {depth : Nat} {b : List UInt8}
    {r : Value × Heap} (hm : bytes m 0 b.length = b) :
    (marDecode m b.length L room depth h).val = .ok r ↔ 2 ≤ room ∧
      ∃ (c : Code) (junk : List UInt8) (s : LuaState), b = 0x8e :: (c.print ++ junk) ∧ c.Fits ∧
        c.height ≤ depth ∧ c.run (machine L room) { heap := h } = .ok s ∧ r = (s.top, s.heap) := by
  cases b with
  | nil =>
      constructor
      · intro hr
        cases hr
      · rintro ⟨-, _, _, _, hb, -⟩
        cases hb
  | cons t p =>
      have hv := (view_start hm).head
      rw [val_marDecode hm]
      constructor
      · intro hr
        split at hr
        · cases hr
        · rename_i ht
          split at hr
          · cases hr
          · rename_i hroom
            obtain ⟨⟨s, pos⟩, hdec, hr⟩ := Xfer.bind_eq_ok.1 hr
            cases hr
            obtain ⟨c, hc⟩ := exists_tree m _ depth _ _ _ _ hdec
            -- the tree ends inside the message
            have hle : c.print.length ≤ p.length := by
              have hpos : pos = 1 + c.print.length := hc.pos
              have hstop : pos ≤ p.length + 1 := hc.stop
              omega
            refine ⟨Nat.not_lt.1 hroom, c, bytes m (1 + c.print.length) (p.length - c.print.length),
              s, ?_, hc.fits, hc.height, hc.run, rfl⟩
            have hp : bytes m 1 p.length = p := hv.bytes
            rw [not_not.1 ht, ← hc.bytes, length_bytes, ← bytes_append, Nat.add_sub_cancel' hle, hp]
      · rintro ⟨hroom, c, junk, s, hb, hf, hd, hrun, rfl⟩
        cases hb
        rw [if_neg (by simp), if_neg (Nat.not_lt.2 hroom), val_decodeValue hv hf hd hrun]
        rfl

/-- **Without functions and hooks the two decoders agree**, if there are slots for what is
built. -/
theorem Memory.marDecode_inert_iff {m : Nat → UInt8} {depth : Nat} {c : Code} {junk : List UInt8}
    {d : Dec} {r : Value × Heap}
    (hm : bytes m 0 (0x8e :: (c.print ++ junk)).length = 0x8e :: (c.print ++ junk)) (hf : c.Fits)
    (hi : c.Inert) (he : c.eval L { heap := h } = .ok (v, d)) :
    (marDecode m (0x8e :: (c.print ++ junk)).length L room depth h).val = .ok r ↔
      c.width + 2 ≤ room ∧ Marshal.marDecode L depth (0x8e :: (c.print ++ junk)) h = .ok r := by
  have hrun : c.run (machine L room) { heap := h } =
      if c.width + 2 ≤ room then .ok ⟨d, [v]⟩ else .crash := by
    rw [Nat.add_comm c.width, c.run_machine [] hi he, List.length_nil, Nat.zero_add]
  have hwidth := c.width_pos
  rw [marDecode_eq_ok_iff hm, Marshal.marDecode_print_iff hf]
  constructor
  · rintro ⟨-, c', junk', s, hb, hf', hd, hrun', rfl⟩
    obtain ⟨rfl, -⟩ := c.print_append_inj c' _ _ hf hf' (List.cons.inj hb).2
    rw [hrun] at hrun'
    split at hrun'
    · rename_i hroom
      cases hrun'
      exact ⟨hroom, hd, d.seen, he⟩
    · cases hrun'
  · rintro ⟨hroom, hd, seen, he'⟩
    rw [if_pos hroom] at hrun
    cases he.symm.trans he'
    exact ⟨by omega, c, junk, _, rfl, hf, hd, hrun, rfl⟩

end

end Leda.Marshal
