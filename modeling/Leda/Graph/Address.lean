import Leda.Graph.Map
import Leda.Lib.Pattern

/-!
# Process addresses

An address is a host name, and maybe a colon and a port.  `add_process` looks for the pattern
`([%w%.]+):(%d+)` in it, which the matcher of `Leda.Lib.Pattern` and the one of `gmatch` find at
the same place (`gmatch_eq_find?`).  The pattern is not anchored, and its class for names has
no hyphen.

So in a name with a hyphen the pattern does not match at the beginning, but it may match after
the hyphen.  What precedes is dropped (`gmatch_hyphen`), and two hosts whose names end alike
after it become one process (`found_hyphen`).  If the name ends with a hyphen there is no match,
and port and all are taken for the name.  An address is registered as it is meant, for any
resolution of names and in any state, exactly if it has no port or its name no hyphen
(`lossless_iff`).
-/

namespace Leda.Graph.Map

open List Leda.Lib

/-- The bytes of host names: letters, digits, dots and hyphens. -/
def isNameByte (b : UInt8) : Bool := isHostByte b || b = 45

/-- An address `h` or `h:p`. -/
structure Address where
  host : List UInt8
  port : Option (List UInt8)
  host_ne_nil : host ≠ []
  host_bytes : ∀ b ∈ host, isNameByte b = true
  port_ne_nil : port ≠ some []
  port_bytes : ∀ p, port = some p → ∀ b ∈ p, isDigit b = true

namespace Address

/-- As it is passed. -/
def text (a : Address) : List UInt8 := a.host ++ a.port.elim [] (58 :: ·)

/-- The process that is meant. -/
def proc {C S N : Type} (env : Env C S N) (a : Address) : Proc N :=
  ⟨(env.toip a.host).getD a.host, a.port.elim env.defaultPort fun p ↦ some (env.tonumber p)⟩

end Address

/-! ## The pattern -/

/-- `([%w%.]+)` -/
def hostPiece : Pattern.Piece UInt8 := ⟨isHostByte, .plus, true⟩

/-- `:` -/
def colonPiece : Pattern.Piece UInt8 := ⟨(· = 58), .one, false⟩

/-- `(%d+)` -/
def portPiece : Pattern.Piece UInt8 := ⟨isDigit, .plus, true⟩

section

variable {s t u h p : List UInt8}

/-- A byte of a name that is not a hyphen. -/
theorem isHostByte_of_ne {b : UInt8} (h : isNameByte b = true) (hb : b ≠ 45) :
    isHostByte b = true := by
  simpa [isNameByte, hb] using h

/-- **At the beginning of a string** both matchers find the same. -/
theorem matchHere_eq (s : List UInt8) :
    (Pattern.matchHere [hostPiece, colonPiece, portPiece] s).map Prod.fst =
      (matchHere s).map fun r ↦ [r.1, r.2] := by
  have hsep : ∀ a, hostPiece.cls a = true → colonPiece.cls a = false := by
    intro a ha
    refine decide_eq_false fun h ↦ ?_
    subst h
    cases ha
  rw [matchHere]
  by_cases hname : s.takeWhile isHostByte = []
  · have hshort : hostPiece.longest s < hostPiece.rep.least := by
      change (s.takeWhile isHostByte).length < 1
      rw [hname]
      exact Nat.zero_lt_one
    rw [Pattern.matchHere_short hshort, hname]
    split <;> simp
  have hlong : hostPiece.rep.least ≤ hostPiece.longest s := length_pos_iff.2 hname
  rw [Pattern.matchHere_separated (.inr rfl) rfl hsep hlong]
  change (Option.map _ (Pattern.matchHere _ (s.dropWhile isHostByte))).map _ = _
  split
  · -- after a colon the digits decide
    rename_i rest hrest
    rw [hrest, Pattern.matchHere_one rfl rfl, if_pos (by rfl), Pattern.matchHere_plus rfl]
    change (Option.map _ (if rest.takeWhile isDigit = [] then _ else _)).map _ = _
    by_cases hdigits : rest.takeWhile isDigit = []
    · simp [hdigits]
    · rw [if_neg hdigits, if_pos ⟨hname, hdigits⟩]
      change some [s.take (s.takeWhile isHostByte).length,
        rest.take (rest.takeWhile isDigit).length] = _
      rw [← prefix_iff_eq_take.1 ( takeWhile_prefix _),
        ← prefix_iff_eq_take.1 ( takeWhile_prefix _)]
      rfl
  · rename_i hrest
    cases hd : s.dropWhile isHostByte with
    | nil => rfl
    | cons b t =>
        rw [Pattern.matchHere_one rfl rfl, if_neg]
        · rfl
        · intro hb
          exact hrest t (by rw [hd, of_decide_eq_true hb])

/-- **The pattern is found where `string.gmatch` finds it.** -/
theorem gmatch_eq_find? (s : List UInt8) :
    (Pattern.find? [hostPiece, colonPiece, portPiece] s).map (fun r ↦ r.1) =
      (gmatch s).map fun r ↦ [r.1, r.2] := by
  induction s with
  | nil => rfl
  | cons b s ih =>
      have hhere := matchHere_eq (b :: s)
      rw [Pattern.find?, gmatch]
      cases hp : Pattern.matchHere [hostPiece, colonPiece, portPiece] (b :: s) with
      | none =>
          rw [hp] at hhere
          rw [Option.map_eq_none_iff.1 hhere.symm]
          exact ih
      | some r =>
          rw [hp] at hhere
          obtain ⟨r', hr', heq⟩ := Option.map_eq_some_iff.1 hhere.symm
          rw [hr']
          exact congrArg some heq.symm

/-- No match begins before a byte that is neither of the name nor a colon. -/
theorem gmatch_skip {b : UInt8} (hu : ∀ a ∈ u, isHostByte a = true) (hb : isHostByte b = false)
    (hc : b ≠ 58) (t : List UInt8) : gmatch (u ++ b :: t) = gmatch t := by
  have hnone : ∀ u : List UInt8, (∀ a ∈ u, isHostByte a = true) →
      matchHere (u ++ b :: t) = none := by
    intro u hu
    have hdrop : (u ++ b :: t).dropWhile isHostByte = b :: t := by
      rw [dropWhile_append_of_pos hu, dropWhile_cons_of_neg (by simp [hb])]
    rw [matchHere, hdrop]
    split
    · rename_i heq
      exact absurd (cons.inj heq).1 hc
    · rfl
  induction u with
  | nil =>
      have h := hnone [] hu
      rw [nil_append] at h ⊢
      rw [gmatch, h]
  | cons a u ih =>
      have h := hnone (a :: u) hu
      rw [cons_append] at h ⊢
      rw [gmatch, h]
      exact ih (forall_mem_cons.1 hu).2

/-- **What precedes a hyphen is dropped.** -/
theorem gmatch_hyphen (hu : ∀ b ∈ u, isNameByte b = true) (t : List UInt8) :
    gmatch (u ++ 45 :: t) = gmatch t := by
  induction hn : u.length using Nat.strong_induction_on generalizing u with
  | _ n ih =>
      by_cases hy : (45 : UInt8) ∈ u
      · -- up to the first hyphen, and then the rest
        obtain ⟨u₁, u₂, rfl, hu₁⟩ := eq_append_cons_of_mem hy
        rw [forall_mem_append, forall_mem_cons] at hu
        rw [append_assoc, cons_append, gmatch_skip _ (by decide) (by decide)]
        · refine ih u₂.length ?_ hu.2.2 rfl
          rw [← hn, length_append, length_cons]
          omega
        · exact fun b hb ↦ isHostByte_of_ne (hu.1 b hb) fun h ↦ hu₁ (h ▸ hb)
      · refine gmatch_skip (fun b hb ↦ isHostByte_of_ne (hu b hb) fun h ↦ hy (h ▸ hb)) ?_ ?_ t
        · decide
        · decide

/-- Without a colon there is no match. -/
theorem gmatch_eq_none (hs : 58 ∉ s) : gmatch s = none := by
  induction s with
  | nil => rfl
  | cons b s ih =>
      have hhere : matchHere (b :: s) = none := by
        rw [matchHere]
        split
        · rename_i rest hrest
          have hmem : (58 : UInt8) ∈ (b :: s).dropWhile isHostByte := by
            rw [hrest]
            exact mem_cons_self
          exact absurd ((dropWhile_suffix isHostByte).subset hmem) hs
        · rfl
      rw [gmatch, hhere]
      exact ih fun h ↦ hs (mem_cons_of_mem b h)

/-- **A name without a hyphen is found whole.** -/
theorem gmatch_name (hh : ∀ b ∈ h, isHostByte b = true) (hne : h ≠ [])
    (hp : ∀ b ∈ p, isDigit b = true) (hpn : p ≠ []) : gmatch (h ++ 58 :: p) = some (h, p) := by
  have htake : (h ++ 58 :: p).takeWhile isHostByte = h := by
    rw [takeWhile_append_of_pos hh, takeWhile_cons_of_neg (by decide), append_nil]
  have hdrop : (h ++ 58 :: p).dropWhile isHostByte = 58 :: p := by
    rw [dropWhile_append_of_pos hh, dropWhile_cons_of_neg (by decide)]
  have hdigits : p.takeWhile isDigit = p := takeWhile_eq_self_iff.2 hp
  have hhere : matchHere (h ++ 58 :: p) = some (h, p) := by
    rw [matchHere, hdrop, htake]
    change (if h ≠ [] ∧ p.takeWhile isDigit ≠ [] then some (h, p.takeWhile isDigit) else none) = _
    rw [hdigits, if_pos ⟨hne, hpn⟩]
  cases h with
  | nil => exact absurd rfl hne
  | cons b h =>
      rw [cons_append] at hhere ⊢
      rw [gmatch, hhere]

/-- What is found as a name has no hyphen. -/
theorem isHostByte_of_gmatch (hg : gmatch s = some (h, p)) : ∀ b ∈ h, isHostByte b = true := by
  induction s with
  | nil => cases hg
  | cons b s ih =>
      rw [gmatch] at hg
      split at hg
      · rename_i r hr
        cases hg
        rw [matchHere] at hr
        split at hr
        · split at hr
          · cases hr
            exact fun b hb ↦ mem_takeWhile_imp hb
          · cases hr
        · cases hr
      · exact ih hg

end

/-! ## What is registered -/

section

variable {C S N : Type}

/-- The process that a string leads to. -/
def found (env : Env C S N) (s : List UInt8) : Proc N :=
  match gmatch s with
  | some (h, p) => ⟨(env.toip h).getD h, some (env.tonumber p)⟩
  | none => ⟨(env.toip s).getD s, env.defaultPort⟩

/-- **Hosts whose names end alike after a hyphen are one process.** -/
theorem found_hyphen (env : Env C S N) {u u' : List UInt8} (hu : ∀ b ∈ u, isNameByte b = true)
    (hu' : ∀ b ∈ u', isNameByte b = true) {t : List UInt8} (ht : gmatch t ≠ none) :
    found env (u ++ 45 :: t) = found env (u' ++ 45 :: t) := by
  rw [found, found, gmatch_hyphen hu, gmatch_hyphen hu']
  cases hg : gmatch t with
  | none => exact absurd hg ht
  | some r => rfl

/-- An address without a port, or without a hyphen, leads to the process that is meant. -/
theorem found_text (env : Env C S N) {a : Address} (h : a.port = none ∨ 45 ∉ a.host) :
    found env a.text = a.proc env := by
  obtain ⟨host, port, hne, hbytes, hpne, hpbytes⟩ := a
  dsimp only at h
  cases port with
  | none =>
      have hcolon : 58 ∉ host := by
        intro hm
        have := hbytes 58 hm
        revert this
        decide
      rw [found, Address.text, Address.proc]
      simp only [Option.elim_none, append_nil]
      rw [gmatch_eq_none hcolon]
  | some p =>
      have hy : 45 ∉ host := h.resolve_left (by simp)
      have hhost : ∀ b ∈ host, isHostByte b = true :=
        fun b hb ↦ isHostByte_of_ne (hbytes b hb) fun h ↦ hy (h ▸ hb)
      rw [found, Address.text]
      simp only [Option.elim_some]
      rw [gmatch_name hhost hne (hpbytes p rfl) fun h ↦ hpne (h ▸ rfl)]
      rfl

/-- **A name with a hyphen is not found whole**, if there is a port. -/
theorem found_text_ne (env : Env C S N) (htoip : ∀ h, env.toip h = none) {a : Address}
    (hp : a.port ≠ none) (hy : 45 ∈ a.host) : (found env a.text).host ≠ a.host := by
  obtain ⟨p, hp⟩ := Option.ne_none_iff_exists'.1 hp
  rw [found]
  cases hg : gmatch a.text with
  | none =>
      -- the text is taken for the name
      dsimp only
      rw [htoip, Option.getD_none, Address.text, hp]
      intro h
      have hlen := congrArg length h
      simp at hlen
  | some r =>
      dsimp only
      rw [htoip, Option.getD_none]
      intro h
      have hbyte := isHostByte_of_gmatch hg 45 (h ▸ hy)
      cases hbyte

end

namespace State

variable {C S N : Type} [DecidableEq C] [DecidableEq N]

/-- The cluster may get another process. -/
def Accepts (env : Env C S N) (σ : State C N) (c : C) : Prop :=
  hasSerial env c = true → σ.addr c = []

section

variable {env : Env C S N} {σ σ' : State C N} {c c' : C} {d : Proc N} {s : List UInt8}

omit [DecidableEq C] in
/-- The processes that there were keep their places, and the one that is found has its place. -/
theorem findProcess_processes (σ : State C N) (d : Proc N) :
    (σ.findProcess d).1.processes[(σ.findProcess d).2]? = some d ∧
      ∀ i < σ.processes.length, (σ.findProcess d).1.processes[i]? = σ.processes[i]? := by
  unfold findProcess
  cases hd : σ.processes.idxOf? d with
  | some i =>
      obtain ⟨hlt, hget, -⟩ := List.idxOf?_eq_some_iff.1 hd
      refine ⟨?_, fun _ _ ↦ rfl⟩
      dsimp only
      rw [List.getElem?_eq_getElem hlt, hget]
  | none => exact ⟨getElem?_concat_length, fun i hi ↦ getElem?_append_left hi⟩

omit [DecidableEq C] in
theorem getProcess_address (env : Env C S N) (σ : State C N) (s : List UInt8) :
    σ.getProcess env (address env (.string s) none).1 (address env (.string s) none).2 =
      ((σ.findProcess (found env s)).1, .ok (σ.findProcess (found env s)).2) := by
  rw [address, found]
  cases gmatch s with
  | none => rfl
  | some r => rfl

/-- **A string is registered as the process that it leads to**, for this cluster only. -/
theorem addProcess_string (h : Sound env σ) (hroom : Accepts env σ c) (s : List UInt8) :
    ∃ σ', σ.addProcess env c (.string s) none = (σ', .ok ()) ∧ Sound env σ' ∧
      σ'.procs c = σ.procs c ++ [found env s] ∧
      ∀ c' ≠ c, σ'.procs c' = σ.procs c' ∧ σ'.addr c' = σ.addr c' := by
  obtain ⟨hnew, hold⟩ := findProcess_processes σ (found env s)
  obtain ⟨-, haddr, -⟩ := findProcess_spec (d := found env s) h
  have hopen : (hasSerial env c && decide ((σ.addr c).length > 0)) = false := by
    cases hs : hasSerial env c with
    | false => rfl
    | true => rw [hroom hs]; rfl
  have hadd : σ.addProcess env c (.string s) none =
      ({ (σ.findProcess (found env s)).1 with
        addr := Function.update (σ.findProcess (found env s)).1.addr c
          ((σ.findProcess (found env s)).1.addr c ++ [(σ.findProcess (found env s)).2]) },
        .ok ()) := by
    rw [addProcess]
    dsimp only
    rw [hopen, if_neg (by simp), getProcess_address]
  have hsound : Sound env (σ.addProcess env c (.string s) none).1 := addProcess_sound h
  rw [hadd] at hsound
  -- the processes of before are where they were
  have hprocs : ∀ l : List Nat, (∀ i ∈ l, i < σ.processes.length) →
      (l.filterMap fun i ↦ (σ.findProcess (found env s)).1.processes[i]?) =
        l.filterMap fun i ↦ σ.processes[i]? :=
    fun l hl ↦ filterMap_congr fun i hi ↦ hold i (hl i hi)
  refine ⟨_, hadd, hsound, ?_, fun c' hc' ↦ ⟨?_, ?_⟩⟩
  · rw [procs, procs]
    dsimp only
    rw [Function.update_self, haddr, filterMap_append, hprocs _ (h.exist c)]
    congr 1
    rw [filterMap_cons_some hnew, filterMap_nil]
  · rw [procs, procs]
    dsimp only
    rw [Function.update_of_ne hc', haddr, hprocs _ (h.exist c')]
  · dsimp only
    rw [Function.update_of_ne hc', haddr]

/-- The addresses of one argument of `map`. -/
def hosts (as : List Address) : List Host := as.map fun a ↦ .string a.text

/-- A cluster with a serial stage is not given a second address. -/
def Fits (env : Env C S N) (c : C) (as : List Address) : Prop :=
  hasSerial env c = true → as.length ≤ 1

/-- **The loop over the addresses of a cluster**, after the first of them. -/
theorem mapProcs_add (h : Sound env σ) {j : Nat} (hj : 1 < j) (as : List Address)
    (hopen : as ≠ [] → hasSerial env c = false) :
    ∃ σ', mapProcs env c j (hosts as) σ = (σ', .ok ()) ∧ Sound env σ' ∧
      σ'.procs c = σ.procs c ++ as.map (fun a ↦ found env a.text) ∧
      ∀ c' ≠ c, σ'.procs c' = σ.procs c' := by
  induction as generalizing σ j with
  | nil => exact ⟨σ, rfl, h, by simp, fun _ _ ↦ rfl⟩
  | cons a as ih =>
      have hserial := hopen (cons_ne_nil _ _)
      obtain ⟨σ₁, h₁, hs₁, hp₁, ho₁⟩ := addProcess_string h (c := c)
        (fun hs ↦ by rw [hserial] at hs; cases hs) a.text
      obtain ⟨σ₂, h₂, hs₂, hp₂, ho₂⟩ := ih hs₁ (Nat.lt_succ_of_lt hj) fun _ ↦ hserial
      refine ⟨σ₂, ?_, hs₂, ?_, fun c' hc' ↦ (ho₂ c' hc').trans (ho₁ c' hc').1⟩
      · rw [hosts, map_cons, mapProcs, if_neg (by omega), h₁]
        · exact h₂
        · simp
      · rw [hp₂, hp₁, append_assoc, map_cons, singleton_append]

omit [DecidableEq N] in
theorem procs_reset : procs { σ with addr := Function.update σ.addr c [] } c' =
    if c' = c then [] else σ.procs c' := by
  rw [procs]
  dsimp only
  split
  · rename_i hc
    rw [hc, Function.update_self]
    rfl
  · rename_i hc
    rw [Function.update_of_ne hc]
    rfl

/-- **The loop over the addresses of a cluster** gives it their processes. -/
theorem mapProcs_hosts (h : Sound env σ) {as : List Address} (hne : as ≠ [])
    (hfits : Fits env c as) :
    ∃ σ', mapProcs env c 1 (hosts as) σ = (σ', .ok ()) ∧ Sound env σ' ∧
      σ'.procs c = as.map (fun a ↦ found env a.text) ∧
      ∀ c' ≠ c, σ'.procs c' = σ.procs c' := by
  obtain ⟨a, as, rfl⟩ := exists_cons_of_ne_nil hne
  obtain ⟨σ₁, h₁, hs₁, hp₁, ho₁⟩ := addProcess_string (h.reset c) (c := c)
    (fun _ ↦ Function.update_self _ _ _) a.text
  obtain ⟨σ₂, h₂, hs₂, hp₂, ho₂⟩ := mapProcs_add hs₁ (Nat.lt_succ_self 1) as fun hne ↦ by
    have hlen := length_pos_iff.2 hne
    cases hserial : hasSerial env c with
    | false => rfl
    | true =>
        have := hfits hserial
        rw [length_cons] at this
        omega
  refine ⟨σ₂, ?_, hs₂, ?_, fun c' hc' ↦ (ho₂ c' hc').trans ((ho₁ c' hc').1.trans ?_)⟩
  · rw [hosts, map_cons, mapProcs, if_pos rfl, setProcess, h₁]
    · exact h₂
    · simp
  · rw [hp₂, hp₁, procs_reset, if_pos rfl, map_cons]
    rfl
  · rw [procs_reset, if_neg hc']

/-- An argument of `map` with these addresses. -/
def IsArg (arg : Arg) (as : List Address) : Prop :=
  arg = .list (hosts as) ∨ ∃ a, as = [a] ∧ arg = .string a.text

theorem mapArgs_cons {arg : Arg} {as : List Address} (ha : IsArg arg as) (cls : List C) (i : Nat)
    (args : List Arg) (σ : State C N) : mapArgs env (c :: cls) i (arg :: args) σ =
      match mapProcs env c 1 (hosts as) σ with
      | (σ, .error err) => (σ, .error err)
      | (σ, .ok _) => mapArgs env cls (i + 1) args σ := by
  rcases ha with rfl | ⟨a, rfl, rfl⟩
  · rfl
  · rfl

/-- **The loop of `map` over its arguments** gives each cluster the processes of its addresses. -/
theorem mapArgs_spec {args : List Arg} {l : List (List Address)}
    (ha : List.Forall₂ IsArg args l) (h : Sound env σ) {cls : List C} (hn : cls.Nodup)
    (hfits : ∀ (i : Nat) (c : C) (as : List Address), cls[i]? = some c → l[i]? = some as →
      Fits env c as) (k : Nat) :
    ∃ σ', mapArgs env cls k args σ = (σ', .ok ()) ∧
      (∀ (i : Nat) (c : C) (as : List Address), cls[i]? = some c → l[i]? = some as → as ≠ [] →
        σ'.procs c = as.map fun a ↦ found env a.text) ∧
      ∀ c ∉ cls, σ'.procs c = σ.procs c := by
  induction ha generalizing σ cls k with
  | nil => exact ⟨σ, by cases cls <;> rfl, fun i c as _ hl ↦ by simp at hl, fun _ _ ↦ rfl⟩
  | @cons arg as args l harg _ ih =>
      cases cls with
      | nil =>
          obtain ⟨σ', h', -, ho⟩ := ih h nodup_nil (fun i c as hc ↦ by simp at hc) (k + 1)
          refine ⟨σ', ?_, fun i c as hc ↦ by simp at hc, ho⟩
          rcases harg with rfl | ⟨a, -, rfl⟩
          · exact h'
          · exact h'
      | cons c cls =>
          obtain ⟨hc, hn⟩ := nodup_cons.1 hn
          have hrest : ∀ (i : Nat) (c : C) (as : List Address), cls[i]? = some c →
              l[i]? = some as → Fits env c as := fun i ↦ hfits (i + 1)
          -- what the first argument leaves
          obtain ⟨σ₁, h₁, hs₁, hp₁, ho₁⟩ : ∃ σ₁, mapProcs env c 1 (hosts as) σ = (σ₁, .ok ()) ∧
              Sound env σ₁ ∧ (as ≠ [] → σ₁.procs c = as.map fun a ↦ found env a.text) ∧
                ∀ c' ≠ c, σ₁.procs c' = σ.procs c' := by
            by_cases hne : as = []
            · subst hne
              exact ⟨σ, rfl, h, fun h ↦ absurd rfl h, fun _ _ ↦ rfl⟩
            · obtain ⟨σ₁, h₁, hs₁, hp₁, ho₁⟩ := mapProcs_hosts h hne (hfits 0 c as rfl rfl)
              exact ⟨σ₁, h₁, hs₁, fun _ ↦ hp₁, ho₁⟩
          obtain ⟨σ₂, h₂, hp₂, ho₂⟩ := ih hs₁ hn hrest (k + 1)
          refine ⟨σ₂, ?_, fun i c' as' hc' hl' hne ↦ ?_, fun c' hc' ↦ ?_⟩
          · rw [mapArgs_cons harg, h₁]
            exact h₂
          · cases i with
            | zero =>
                obtain rfl := Option.some.inj hc'
                obtain rfl := Option.some.inj hl'
                exact (ho₂ c hc).trans (hp₁ hne)
            | succ i => exact hp₂ i c' as' hc' hl' hne
          · rw [mem_cons, not_or] at hc'
            exact (ho₂ c' hc'.2).trans (ho₁ c' hc'.1)

/-- `map` leaves the processes that its loop has given. -/
theorem procs_map {cls : List C} (hcls : σ.cluster = some cls) {args : List Arg}
    (h : mapArgs env cls 1 args σ = (σ', .ok ())) (visit : Visit C) (c : C) :
    (σ.map env args visit).1.procs c = σ'.procs c := by
  rw [map, hcls]
  dsimp only
  rw [h]
  dsimp only
  split
  · rfl
  · rfl

end

/-- **The address is registered as it is meant**: in any state that can be reached, and for any
resolution of names, `add_process` adds its process to a cluster that may get one, and after
`map` a cluster has it at the place that the address had in its argument. -/
structure Lossless (a : Address) : Prop where
  add : ∀ (C S N : Type) [DecidableEq C] [DecidableEq N] (env : Env C S N) (ops : List (Op C N))
    (c : C), Accepts env (after env ops) c →
      ((after env ops).addProcess env c (.string a.text) none).2 = .ok () ∧
      ((after env ops).addProcess env c (.string a.text) none).1.procs c =
        (after env ops).procs c ++ [a.proc env]
  map : ∀ (C S N : Type) [DecidableEq C] [DecidableEq N] (env : Env C S N) (ops : List (Op C N))
    (cls : List C) (args : List Arg) (l : List (List Address)) (visit : Visit C),
    (after env ops).cluster = some cls → cls.Nodup → List.Forall₂ IsArg args l →
      (∀ (i : Nat) (c : C) (as : List Address), cls[i]? = some c → l[i]? = some as →
        Fits env c as) →
      ∀ (i j : Nat) (c : C) (as : List Address), cls[i]? = some c → l[i]? = some as →
        as[j]? = some a →
          (((after env ops).map env args visit).1.procs c)[j]? = some (a.proc env)

/-- **An address is registered as it is meant exactly if** it has no port, or its host name has
no hyphen. -/
theorem lossless_iff (a : Address) : Lossless a ↔ a.port = none ∨ 45 ∉ a.host := by
  constructor
  · intro h
    by_contra hno
    obtain ⟨hp, hy⟩ := not_or.1 hno
    -- one cluster, and names that are not resolved
    obtain ⟨-, hprocs⟩ := h.add Nat Nat Nat twoClusters [] 0 fun _ ↦ rfl
    obtain ⟨σ', hσ', -, hfound, -⟩ := addProcess_string (sound_after twoClusters [])
      (c := 0) (fun _ ↦ rfl) a.text
    rw [hσ', hfound] at hprocs
    have heq := singleton_inj.1 (append_cancel_left hprocs)
    refine found_text_ne twoClusters (fun _ ↦ rfl) hp (not_not.1 hy) ?_
    rw [heq]
    rfl
  · intro h
    refine ⟨?_, ?_⟩
    · intro C S N _ _ env ops c hroom
      obtain ⟨σ', hσ', -, hfound, -⟩ := addProcess_string (sound_after env ops) hroom a.text
      rw [hσ', hfound, found_text env h]
      exact ⟨rfl, rfl⟩
    · intro C S N _ _ env ops cls args l visit hcls hn ha hfits i j c as hc hl hj
      obtain ⟨σ', hσ', hfound, -⟩ := mapArgs_spec ha (sound_after env ops) hn hfits 1
      have hne : as ≠ [] := by
        rintro rfl
        simp at hj
      rw [procs_map hcls hσ', hfound i c as hc hl hne, getElem?_map, hj, Option.map_some,
        found_text env h]

/-- `a-b:1` -/
def hyphened : Address where
  host := [97, 45, 98]
  port := some [49]
  host_ne_nil := by simp
  host_bytes := by simp [isNameByte, isHostByte]
  port_ne_nil := by simp
  port_bytes := by simp [isDigit]

/-- **The part before the hyphen is lost**: `a-b:1` and `c-b:1` are both registered as `b:1`. -/
theorem not_lossless_hyphened : found twoClusters hyphened.text = ⟨[98], some 1⟩ ∧
    found twoClusters [99, 45, 98, 58, 49] = ⟨[98], some 1⟩ ∧ ¬ Lossless hyphened := by
  refine ⟨by decide, by decide, fun h ↦ ?_⟩
  obtain ⟨-, hprocs⟩ := h.add Nat Nat Nat twoClusters [] 0 fun _ ↦ rfl
  revert hprocs
  decide

end State

end Leda.Graph.Map
