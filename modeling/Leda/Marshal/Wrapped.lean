import Leda.Marshal.Calls

/-!
# Every wrapped userdata is unwrapped

When an encoding that may call `__wrap` hooks succeeds, it has called the hook of every
userdata inside the value, at any depth (`marEncode_wrapCalled`).  The argument is the one
for `marEncode_good`, with the calls as what is collected on the way: what a part of the
encoder visited is closed up to what was seen before, and the calls of its wrapped userdata
are in its list.
-/

namespace Leda.Marshal

open Leda.Lib Leda.Lua

/-- A userdata with a `__wrap` hook. -/
def Wrapped (h : Heap) (a : Nat) : Prop := ∃ u f, h[a]? = some (.userdata u) ∧ u.wrap = some f

/-- The `__wrap` hook of `a` is called. -/
def WrapCalled (cs : List Call) (a : Nat) : Prop := ∃ c ∈ cs, c.name = "__wrap" ∧ c.object = a

theorem WrapCalled.mono {cs cs' : List Call} {a : Nat} (h : WrapCalled cs a)
    (hsub : ∀ c ∈ cs, c ∈ cs') : WrapCalled cs' a := by
  obtain ⟨c, hc, hname⟩ := h
  exact ⟨c, hsub c hc, hname⟩

theorem Wrapped.lt {h : Heap} {a : Nat} (hw : Wrapped h a) : a < h.length := by
  obtain ⟨u, f, hu, -⟩ := hw
  exact (List.getElem?_eq_some_iff.1 hu).1

theorem Wrapped.append {h : Heap} {a : Nat} (hw : Wrapped h a) (new : List Object) :
    Wrapped (h ++ new) a := by
  obtain ⟨u, f, hu, hf⟩ := hw
  exact ⟨u, f, (getElem?_append_of_lt (List.getElem?_eq_some_iff.1 hu).1).trans hu, hf⟩

/-- What the part of an encoding that led from `st` to `st'` and wrote the values `vs` has
visited, and that the calls `cs` it made include those of the wrapped userdata among it. -/
def Collected (lua52 : Bool) (h₀ : Heap) (st st' : Enc) (vs : List Value) (cs : List Call) :
    Prop :=
  ∃ X, Closed (Inside lua52 h₀) (fun a ↦ Wrapped h₀ a → WrapCalled cs a) (Seen h₀ st) X ∧
    (∀ a, a < h₀.length → .object a ∈ vs → X a ∨ Seen h₀ st a) ∧
    ∀ a, Seen h₀ st' a → Seen h₀ st a ∨ X a

/-- Every value this part of the encoder writes is collected. -/
def Collects (lua52 : Bool) (h₀ : Heap) (enc : Value → Enc → Written)
    (calls : Value → Enc → List Call) : Prop :=
  ∀ v st b st', (∃ new, st.heap = h₀ ++ new) → enc v st = .ok (b, st') →
    Collected lua52 h₀ st st' [v] (calls v st)

section

variable {hooks : Hooks} {lua52 : Bool} {h₀ : Heap} {st st₁ st' : Enc} {a : Nat}
  {enc : Value → Enc → Written} {calls : Value → Enc → List Call} {b : List UInt8}
  {vs ws : List Value} {cs cs' : List Call} {entries : List (Value × Value)}

namespace Collected

theorem refl (hvs : ∀ a, .object a ∉ vs) : Collected lua52 h₀ st st vs cs :=
  ⟨fun _ ↦ False, .empty, fun a _ hm ↦ absurd hm (hvs a), fun _ ↦ .inl⟩

theorem mono (h : Collected lua52 h₀ st st' vs cs) (hsub : ∀ c ∈ cs, c ∈ cs') :
    Collected lua52 h₀ st st' vs cs' := by
  obtain ⟨X, hX, hvs, hs⟩ := h
  exact ⟨X, fun a ha ↦ ⟨fun hw ↦ ((hX a ha).1 hw).mono hsub, (hX a ha).2⟩, hvs, hs⟩

/-- One part after another. -/
theorem trans (h : Collected lua52 h₀ st st₁ vs cs) (h' : Collected lua52 h₀ st₁ st' ws cs') :
    Collected lua52 h₀ st st' (vs ++ ws) (cs ++ cs') := by
  have hall : Collected lua52 h₀ st st₁ vs (cs ++ cs') := h.mono fun c ↦ List.mem_append_left _
  have hall' : Collected lua52 h₀ st₁ st' ws (cs ++ cs') :=
    h'.mono fun c ↦ List.mem_append_right _
  obtain ⟨X, hX, hvs, hseen⟩ := hall
  obtain ⟨X', hX', hws, hseen'⟩ := hall'
  refine ⟨_, hX.union hX' hseen, fun a ha hm ↦ ?_, fun a ha ↦ ?_⟩
  · rcases List.mem_append.1 hm with hm | hm
    · exact (hvs a ha hm).imp_left .inl
    · rcases hws a ha hm with hx | hs
      · exact .inl (.inr hx)
      · exact (hseen a hs).symm.imp_left .inl
  · rcases hseen' a ha with hs | hx
    · exact (hseen a hs).imp_right .inl
    · exact .inr (.inr hx)

/-- An object is finished: what is inside it was written, and if it is a wrapped userdata
its hook was called. -/
theorem object (h : Collected lua52 h₀ st₁ st' vs cs)
    (hseen : ∀ b, Seen h₀ st₁ b → Seen h₀ st b ∨ b = a)
    (ha : a < h₀.length → (Wrapped h₀ a → WrapCalled cs a) ∧
      ∀ b, Inside lua52 h₀ a b → .object b ∈ vs) :
    Collected lua52 h₀ st st' [.object a] cs := by
  obtain ⟨X, hX, hvs, hs⟩ := h
  by_cases hlt : a < h₀.length
  · obtain ⟨hg, hin⟩ := ha hlt
    refine ⟨_, hX.insert hseen hg fun b hb ↦ hvs b hb.1 (hin b hb), fun b _ hb ↦ ?_,
      fun b hb ↦ ?_⟩
    · obtain rfl : b = a := by simpa using hb
      exact .inl (.inr rfl)
    · rcases hs b hb with hb | hb
      · exact (hseen b hb).imp_right .inr
      · exact .inr (.inl hb)
  · have hsame : ∀ b, Seen h₀ st₁ b → Seen h₀ st b := fun b hb ↦
      (hseen b hb).resolve_right fun e ↦ hlt (e ▸ hb.1)
    refine ⟨X, fun b hb ↦ ⟨(hX b hb).1, fun c hc ↦ ((hX b hb).2 c hc).imp_right (hsame c)⟩,
      fun b hb hm ↦ ?_, fun b hb ↦ (hs b hb).imp_left (hsame b)⟩
    obtain rfl : b = a := by simpa using hm
    exact absurd hb hlt

end Collected

/-- A table collects what its keys and values collect. -/
theorem encodeTable_collected (he : Explores lua52 h₀ enc) (hc : Collects lua52 h₀ enc calls) :
    ∀ {entries : List (Value × Value)} {st st' : Enc} {b : List UInt8},
      (∃ new, st.heap = h₀ ++ new) → encodeTable enc entries st = .ok (b, st') →
        Collected lua52 h₀ st st' (entries.flatMap fun e ↦ [e.1, e.2])
          (callsTable enc calls entries st)
  | [], st, st', b, hh, h => by
      cases h
      exact .refl (by simp)
  | (k, v) :: rest, st, st', b, hh, h => by
      obtain ⟨⟨bk, st₁⟩, hk, h⟩ := Xfer.bind_eq_ok.1 h
      obtain ⟨⟨bv, st₂⟩, hv, h⟩ := Xfer.bind_eq_ok.1 h
      obtain ⟨⟨br, st₃⟩, hr, h⟩ := Xfer.bind_eq_ok.1 h
      cases h
      have hh₁ := (he k st bk st₁ hh hk).heap
      have hh₂ := (he v st₁ bv st₂ hh₁ hv).heap
      have h₁ := hc k st bk st₁ hh hk
      have h₂ := hc v st₁ bv st₂ hh₁ hv
      have h₃ := encodeTable_collected he hc hh₂ hr
      have hall := h₁.trans (h₂.trans h₃)
      simp only [callsTable, hk, hv, after]
      exact hall

theorem encodeBody_collected {head : List UInt8} (he : Explores lua52 h₀ enc)
    (hc : Collects lua52 h₀ enc calls) (hh : ∃ new, st.heap = h₀ ++ new)
    (h : encodeBody enc head entries st = .ok (b, st')) :
    Collected lua52 h₀ st st' (entries.flatMap fun e ↦ [e.1, e.2])
      (callsTable enc calls entries st) := by
  obtain ⟨⟨bt, st₁⟩, ht, h⟩ := Xfer.bind_eq_ok.1 h
  obtain ⟨c, -, h⟩ := Xfer.bind_eq_ok.1 h
  cases h
  exact encodeTable_collected he hc hh ht

/-- A hook is called, and then what it returned is collected. -/
theorem encodeHook_collected {type : UInt8} {name : String} {f : Value}
    (he : Explores lua52 h₀ enc) (hc : Collects lua52 h₀ enc calls)
    (hh : ∃ new, st.heap = h₀ ++ new)
    (h : encodeHook enc hooks type name f a st = .ok (b, st')) :
    ∃ vs, Collected lua52 h₀ st st' vs (callsHook enc calls hooks name f a st) := by
  obtain ⟨⟨r, st₁⟩, hcall, h⟩ := Xfer.bind_eq_ok.1 h
  obtain ⟨hseen, new', hnew'⟩ := callHook_eq_ok hcall
  obtain ⟨new, hnew⟩ := hh
  have hh₁ : ∃ new, st₁.heap = h₀ ++ new := ⟨new ++ new', by rw [hnew', hnew, List.append_assoc]⟩
  have hsub : ∀ c ∈ _, c ∈ callsHook enc calls hooks name f a st := fun c hm ↦ by
    simp only [callsHook, hcall]
    exact List.mem_cons_of_mem _ hm
  obtain ⟨X, hX, hvs, hs⟩ := (encodeBody_collected he hc hh₁ h).mono hsub
  have heq : Seen h₀ st₁ = Seen h₀ st := by
    funext b
    simp only [Seen, hseen]
  exact ⟨_, X, heq ▸ hX, heq ▸ hvs, heq ▸ hs⟩

/-- An object that is no userdata is not wrapped. -/
theorem not_wrapped {o : Object} (ho : h₀[a]? = some o) (hu : ∀ u, o ≠ .userdata u) :
    ¬ Wrapped h₀ a := by
  rintro ⟨u, f, hu', -⟩
  rw [ho] at hu'
  exact hu u (Option.some.inj hu')

/-- A table collects the call of its `__persist` hook, or what its entries collect. -/
theorem encodeTableObject_collected {t : Table} (he : Explores lua52 h₀ enc)
    (hc : Collects lua52 h₀ enc calls) (hh : ∃ new, st.heap = h₀ ++ new)
    (ho : a < h₀.length → h₀[a]? = some (.table t))
    (h : encodeTableObject enc hooks a t st = .ok (b, st')) :
    Collected lua52 h₀ st st' [.object a] (callsTableObject enc calls hooks a t st) := by
  have hno : a < h₀.length → ¬ Wrapped h₀ a := fun ha ↦ not_wrapped (ho ha) (by simp)
  simp only [encodeTableObject] at h
  simp only [callsTableObject]
  cases hp : t.persist with
  | some f =>
      rw [hp] at h
      obtain ⟨vs, hx⟩ := encodeHook_collected he hc hh h
      refine hx.object (fun _ ↦ .inl) fun ha ↦ ⟨fun hwr ↦ absurd hwr (hno ha), fun c hin ↦ ?_⟩
      have := hin.2
      simp [ho ha, hp] at this
  | none =>
      rw [hp] at h
      have hhr : ∃ new, (st.record a).heap = h₀ ++ new := hh
      refine (encodeBody_collected he hc hhr h).object (fun _ ↦ seen_record) fun ha ↦
        ⟨fun hwr ↦ absurd hwr (hno ha), fun c hin ↦ ?_⟩
      have hin := hin.2
      rw [ho ha] at hin
      obtain ⟨-, e, hm, hec⟩ := hin
      refine List.mem_flatMap.2 ⟨e, hm, ?_⟩
      rcases hec with hec | hec <;> simp [hec]

/-- A function collects what its upvalues collect. -/
theorem encodeFunction_collected {f : Closure} (he : Explores lua52 h₀ enc)
    (hc : Collects lua52 h₀ enc calls) (hh : ∃ new, st.heap = h₀ ++ new)
    (ho : a < h₀.length → h₀[a]? = some (.function f))
    (h : encodeFunction enc lua52 a f st = .ok (b, st')) :
    Collected lua52 h₀ st st' [.object a] (callsFunction enc calls lua52 a f st) := by
  simp only [encodeFunction] at h
  by_cases hw : f.what = .lua
  · rw [if_neg (not_not.2 hw)] at h
    obtain ⟨code, hcode, h⟩ := Xfer.bind_eq_ok.1 h
    have hd : ¬ 2 ^ 32 - 1 < f.dump.length := fun hd ↦ by
      rw [chunk, if_pos hd] at hcode
      cases hcode
    have hhr : ∃ new, (st.record a).heap = h₀ ++ new := hh
    simp only [callsFunction]
    rw [if_neg (not_or.2 ⟨not_not.2 hw, hd⟩)]
    refine (encodeBody_collected he hc hhr h).object (fun _ ↦ seen_record) fun ha ↦
      ⟨fun hwr ↦ absurd hwr (not_wrapped (ho ha) (by simp)), fun c hin ↦ ?_⟩
    have hin := hin.2
    rw [ho ha] at hin
    obtain ⟨u, hu, huc⟩ := hin
    exact mem_upvalueTable hu huc
  · rw [if_pos hw] at h
    cases h

/-- A userdata collects the call of its `__wrap` hook, or else of its `__persist` hook. -/
theorem encodeUserdata_collected {u : Userdata} (he : Explores lua52 h₀ enc)
    (hc : Collects lua52 h₀ enc calls) (hh : ∃ new, st.heap = h₀ ++ new)
    (ho : a < h₀.length → h₀[a]? = some (.userdata u))
    (h : encodeUserdata enc hooks false a u st = .ok (b, st')) :
    Collected lua52 h₀ st st' [.object a] (callsUserdata enc calls hooks false a u st) := by
  have hhr : ∃ new, (st.record a).heap = h₀ ++ new := hh
  have hnone : a < h₀.length → ∀ c, ¬ Inside lua52 h₀ a c := fun ha c hin ↦ by
    have := hin.2
    simp [ho ha] at this
  simp only [callsUserdata]
  simp only [encodeUserdata] at h
  cases hw : u.wrap with
  | some f =>
      simp only [Bool.false_eq_true, if_false, hw] at h ⊢
      obtain ⟨vs, hx⟩ := encodeHook_collected he hc hhr h
      exact hx.object (fun _ ↦ seen_record) fun ha ↦
        ⟨fun _ ↦ ⟨_, List.mem_cons_self, rfl, rfl⟩, fun c hin ↦ absurd hin (hnone ha c)⟩
  | none =>
      simp only [Bool.false_eq_true, if_false, hw] at h ⊢
      have hno : a < h₀.length → ¬ Wrapped h₀ a := by
        rintro ha ⟨u', f, hu', hf⟩
        rw [ho ha] at hu'
        cases hu'
        rw [hw] at hf
        cases hf
      cases hp : u.persist with
      | some f =>
          simp only [hp] at h ⊢
          obtain ⟨vs, hx⟩ := encodeHook_collected he hc hhr h
          exact hx.object (fun _ ↦ seen_record) fun ha ↦
            ⟨fun hwr ↦ absurd hwr (hno ha), fun c hin ↦ absurd hin (hnone ha c)⟩
      | none =>
          simp only [hp] at h
          cases h

/-- An object that was seen before collects nothing. -/
theorem Collected.of_seen {ref : Nat} (hl : st.seen.lookup a = some ref) :
    Collected lua52 h₀ st st [.object a] cs := by
  refine ⟨fun _ ↦ False, .empty, fun c hlt hm ↦ .inr ?_, fun _ ↦ .inl⟩
  obtain rfl : c = a := by simpa using hm
  obtain ⟨l₁, l₂, hs, -⟩ := List.lookup_eq_some_iff.1 hl
  exact ⟨hlt, by simp [hs]⟩

/-- An object collects its own call, and then what is inside it. -/
theorem encodeObject_collected {o : Object} (he : Explores lua52 h₀ enc)
    (hc : Collects lua52 h₀ enc calls) (hh : ∃ new, st.heap = h₀ ++ new)
    (ho : st.heap[a]? = some o)
    (h : encodeObject enc hooks lua52 false a o st = .ok (b, st')) :
    Collected lua52 h₀ st st' [.object a] (callsObject enc calls hooks lua52 false a o st) := by
  have ho₀ : a < h₀.length → h₀[a]? = some o := fun ha ↦ by
    obtain ⟨new, hnew⟩ := hh
    rwa [hnew, getElem?_append_of_lt ha] at ho
  unfold encodeObject at h
  split at h
  · cases h
  · rename_i ref _ hl
    cases h
    exact .of_seen hl
  · rename_i t hl
    simp only [callsObject, hl]
    exact encodeTableObject_collected he hc hh ho₀ h
  · rename_i f hl
    simp only [callsObject, hl]
    exact encodeFunction_collected he hc hh ho₀ h
  · rename_i u hl
    simp only [callsObject, hl]
    exact encodeUserdata_collected he hc hh ho₀ h

/-- **Every value is collected**, by induction on the room for the recursion. -/
theorem encodeValue_collects (hooks : Hooks) (lua52 : Bool) (h₀ : Heap) :
    ∀ depth, Collects lua52 h₀ (encodeValue hooks lua52 false depth)
      (callsValue hooks lua52 false depth)
  | 0 => fun v st b st' _ h ↦ by cases h
  | depth + 1 => fun v st b st' hh h ↦ by
      have hc := encodeValue_collects hooks lua52 h₀ depth
      have he := encodeValue_explores hooks lua52 false h₀ depth
      cases v with
      | nil | boolean | number | lightuserdata =>
          cases h
          exact .refl (by simp)
      | string s =>
          obtain ⟨c, -, h⟩ := Xfer.bind_eq_ok.1 h
          cases h
          exact .refl (by simp)
      | object a =>
          simp only [encodeValue] at h
          simp only [callsValue]
          cases ho : st.heap[a]? with
          | some o =>
              rw [ho] at h
              exact encodeObject_collected he hc hh ho h
          | none =>
              rw [ho] at h
              cases h
              refine ⟨fun _ ↦ False, .empty, fun c hlt hm ↦ ?_, fun _ ↦ .inl⟩
              obtain rfl : c = a := by simpa using hm
              obtain ⟨new, hnew⟩ := hh
              rw [hnew, getElem?_append_of_lt hlt, List.getElem?_eq_none_iff] at ho
              omega

/-- **A successful encoding has called the hook of every wrapped userdata inside.** -/
theorem marEncode_wrapCalled {depth : Nat} {h : Heap} {r : List UInt8 × Heap} {a b : Nat}
    (hr : marEncode hooks lua52 false depth (.object a) h = .ok r) (ha : a < h.length)
    (hab : Relation.ReflTransGen (Inside lua52 h) a b) (hb : Wrapped h b) :
    WrapCalled (callsValue hooks lua52 false depth (.object a) { heap := h }) b := by
  obtain ⟨⟨bs, st'⟩, hv, -⟩ := Xfer.bind_eq_ok.1 hr
  obtain ⟨X, hX, hvs, -⟩ :=
    encodeValue_collects hooks lua52 h depth _ _ _ _ ⟨[], by simp⟩ hv
  have hnone : Seen h { heap := h } = fun _ ↦ False := by
    funext b
    simp [Seen]
  rw [hnone] at hX hvs
  exact hX.good_of_reaches ((hvs a ha (by simp)).resolve_right id) hab hb

end

end Leda.Marshal
