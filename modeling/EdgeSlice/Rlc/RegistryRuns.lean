import EdgeSlice.Rlc.Registry
import EdgeSlice.Common.HashTable
import EdgeSlice.GuardedRun
import Mathlib.Data.Nat.Bitwise

namespace EdgeSlice.Rlc

open Common Function

/-- A bearer, with its service and session if it is an MBMS bearer. -/
inductive RlcBearer
  | plain (ctxt : ProtocolCtxt) (srbFlag : Bool) (rbId : ℕ)
  | mbms (ctxt : ProtocolCtxt) (id : ℕ × ℕ)
  deriving DecidableEq

namespace RlcBearer

def key : RlcBearer → ℕ
  | plain ctxt srbFlag rbId => rlcCollKeyValue ctxt rbId srbFlag
  | mbms ctxt id => rlcCollKeyMbmsValue ctxt id

def keyLcid (lcId : ℕ) : RlcBearer → ℕ
  | plain ctxt srbFlag _ => rlcCollKeyLcidValue ctxt lcId srbFlag
  | mbms _ _ => notAKeyValue

end RlcBearer

/-- The collection with the bearers that are registered, each with its logical channel and its entity, and the
entities of the bearers that have been removed. -/
structure Tracked where
  registry : Registry
  bearers : RlcBearer → Option (ℕ × ℕ)
  removed : List ℕ

inductive RegistryEvent
  | add (ctxt : ProtocolCtxt) (srbFlag mbmsFlag : Bool) (rbId chanId : ℕ) (mode : RlcMode)
  | remove (ctxt : ProtocolCtxt) (srbFlag mbmsFlag : Bool) (rbId : ℕ)
  /-- An entity is configured. -/
  | configReq (key chanId : ℕ)
  /-- The tables of the MBMS bearers are written. -/
  | setMbms (ids : MbmsIds)

/-- The bearer that a call names. -/
def Registry.bearer (ctxt : ProtocolCtxt) (srbFlag mbmsFlag : Bool) (rbId : ℕ) (s : Registry) : RlcBearer :=
  if mbmsFlag then .mbms ctxt (s.mbms.idOf ctxt (s.mbms.lcid ctxt rbId)) else .plain ctxt srbFlag rbId

/-- A bearer is registered once its addition has returned an entity, until it is removed. -/
def registryStep (rlcMaxLc : ℕ) : RegistryEvent → Tracked → Option Tracked
  | .add ctxt srbFlag mbmsFlag rbId chanId mode, ⟨s, bearers, removed⟩ =>
    let b := s.bearer ctxt srbFlag mbmsFlag rbId
    (s.rrcRlcAddRlc rlcMaxLc ctxt srbFlag mbmsFlag rbId chanId mode).map fun (s, returned) ↦
      match returned with
      | some p => ⟨s, update bearers b (some ((bearers b).getD (chanId, p))), removed⟩
      | none => ⟨s, bearers, removed⟩
  | .remove ctxt srbFlag mbmsFlag rbId, ⟨s, bearers, removed⟩ =>
    let b := s.bearer ctxt srbFlag mbmsFlag rbId
    (s.rrcRlcRemoveRlc ctxt srbFlag mbmsFlag rbId).map fun s ↦
      ⟨s, update bearers b none, removed ++ ((bearers b).map Prod.snd).toList⟩
  | .configReq key chanId, t => some { t with registry := t.registry.configReq key chanId }
  | .setMbms ids, t => some { t with registry := { t.registry with mbms := ids } }

/-- What is to hold after each call. -/
structure RegistryConsistent (t : Tracked) : Prop where
  /-- Each registered bearer is found under both its keys, and its entity is live. -/
  found : ∀ b lcId p, t.bearers b = some (lcId, p) → t.registry.coll.get b.key = some (some p) ∧
    t.registry.coll.get (b.keyLcid lcId) = some (some p) ∧
    (t.registry.unions p).releases = 0 ∧ (t.registry.unions p).freed = false
  /-- No two bearers share an entity. -/
  separate : ∀ b b' lcId lcId' p, t.bearers b = some (lcId, p) → t.bearers b' = some (lcId', p) → b = b'
  /-- The collection has no other entries. -/
  only : ∀ k d, t.registry.coll.get k = some d →
    ∃ b lcId p, t.bearers b = some (lcId, p) ∧ d = some p ∧ (k = b.key ∨ k = b.keyLcid lcId)
  /-- The entity of a removed bearer has been released once. -/
  released : ∀ p ∈ t.removed, (t.registry.unions p).releases = 1

/-- A removal finds no entity, or one whose LC-id key is not in the collection. -/
def Registry.missesLcid (ctxt : ProtocolCtxt) (srbFlag mbmsFlag : Bool) (rbId : ℕ) (s : Registry) : Bool :=
  match s.removeArgs ctxt srbFlag mbmsFlag rbId with
  | (s, lcid, key) => (s.coll.get key).join.all fun p ↦ (s.coll.get (s.keyLcidOf ctxt srbFlag lcid p)).isNone

/-- The calls for which the code is right: a bearer that is added is registered or finds both its keys free, and one
that is removed is not registered, the clearing of the MBMS tables not leading to an entity whose LC-id key is in the
collection. -/
def KeysFree (t : Tracked) : RegistryEvent → Prop
  | .add ctxt srbFlag mbmsFlag rbId chanId _ =>
    t.bearers (t.registry.bearer ctxt srbFlag mbmsFlag rbId) ≠ none ∨
      t.registry.coll.get (t.registry.addKeys ctxt srbFlag mbmsFlag rbId chanId).1 = none ∧
        t.registry.coll.get (t.registry.addKeys ctxt srbFlag mbmsFlag rbId chanId).2 = none
  | .remove ctxt srbFlag mbmsFlag rbId =>
    t.bearers (t.registry.bearer ctxt srbFlag mbmsFlag rbId) = none ∧
      t.registry.missesLcid ctxt srbFlag mbmsFlag rbId = true
  | _ => True

instance : ∀ (t : Tracked) (x : RegistryEvent), Decidable (KeysFree t x)
  | _, .add .. => inferInstanceAs (Decidable (_ ∨ _))
  | _, .remove .. => inferInstanceAs (Decidable (_ ∧ _))
  | _, .configReq .. => inferInstanceAs (Decidable True)
  | _, .setMbms _ => inferInstanceAs (Decidable True)

/-- What these calls keep. -/
structure RegistryKept (t : Tracked) : Prop extends RegistryConsistent t where
  chained : t.registry.coll.Chained t.registry.coll.get
  lt_next : ∀ b lcId p, t.bearers b = some (lcId, p) → p < t.registry.nextUnion
  removed_eq : t.removed = []

variable {rlcMaxLc rbId chanId key lcid : ℕ} {ctxt : ProtocolCtxt} {srbFlag mbmsFlag : Bool} {mode : RlcMode}
  {s : Registry} {t t' : Tracked}

/-- The first key of a bearer is never its second one. -/
theorem rlcCollKeyValue_ne (hrb : rbId < nbRbMax) :
    rlcCollKeyValue ctxt rbId srbFlag ≠ rlcCollKeyLcidValue ctxt chanId srbFlag := by
  intro heq
  have hbit := congrArg (Nat.testBit · 35) heq
  have hmodule : ctxt.moduleId.toNat.testBit 35 = false :=
    Nat.testBit_lt_two_pow (ctxt.moduleId.toNat_lt.trans (by decide))
  have hrnti : ctxt.rnti.toNat.testBit 27 = false := Nat.testBit_lt_two_pow (ctxt.rnti.toNat_lt.trans (by decide))
  have hrb : rbId.testBit 10 = false := Nat.testBit_lt_two_pow (hrb.trans (by decide))
  have henb : ctxt.enbFlag.toNat.testBit 11 = false := by cases ctxt.enbFlag <;> rfl
  have hsrb : srbFlag.toNat.testBit 2 = false := by cases srbFlag <;> rfl
  have hmark : (0x05 <<< 34).testBit 35 = false := by decide
  have hmark' : (0x0a <<< 34).testBit 35 = true := by decide
  simp only [rlcCollKeyValue, rlcCollKeyLcidValue, Nat.testBit_or, hmark, hmark'] at hbit
  simp [Nat.testBit_shiftLeft, hmodule, hrnti, hrb, henb, hsrb] at hbit

theorem rlcCollKeyMbmsValue_ne (id : ℕ × ℕ) : rlcCollKeyMbmsValue ctxt id ≠ notAKeyValue := by
  intro heq
  have hbit := congrArg (Nat.testBit · 25) heq
  have hmodule : ctxt.moduleId.toNat.testBit 25 = false :=
    Nat.testBit_lt_two_pow (ctxt.moduleId.toNat_lt.trans (by decide))
  have hrnti : ctxt.rnti.toNat.testBit 17 = false := Nat.testBit_lt_two_pow (ctxt.rnti.toNat_lt.trans (by decide))
  have henb : ctxt.enbFlag.toNat.testBit 1 = false := by cases ctxt.enbFlag <;> rfl
  have hsession : (id.2 <<< 37 % 2 ^ 64).testBit 25 = false := by
    rw [Nat.testBit_mod_two_pow, Nat.testBit_shiftLeft]
    simp
  have hmark : (1 <<< 63).testBit 25 = false := by decide
  have hkey : notAKeyValue.testBit 25 = true := by decide
  simp only [rlcCollKeyMbmsValue, Nat.testBit_or, hsession, hmark, hkey] at hbit
  simp [Nat.testBit_shiftLeft, hmodule, hrnti, henb] at hbit

namespace RegistryKept

/-- The keys of a bearer that is to be added. -/
theorem addKeys_eq (s : Registry) : s.addKeys ctxt srbFlag mbmsFlag rbId chanId =
    ((s.bearer ctxt srbFlag mbmsFlag rbId).key, (s.bearer ctxt srbFlag mbmsFlag rbId).keyLcid chanId) := by
  cases mbmsFlag <;> rfl

theorem keys_ne (hplain : ¬(mbmsFlag = false ∧ ¬(rbId < nbRbMax ∧ chanId < rlcMaxLc))) (s : Registry) :
    (s.bearer ctxt srbFlag mbmsFlag rbId).key ≠ (s.bearer ctxt srbFlag mbmsFlag rbId).keyLcid chanId := by
  cases mbmsFlag with
  | true => exact rlcCollKeyMbmsValue_ne _
  | false => exact rlcCollKeyValue_ne (not_not.mp fun h ↦ hplain ⟨rfl, fun h' ↦ h h'.1⟩)

/-- The table behind the insertion of an entity under two free keys. -/
theorem insertTwice {coll : HashTable ℕ ℕ} (h : coll.Chained coll.get) {k k' : ℕ} (hk : coll.get k = none)
    (hk' : coll.get k' = none) (hne : k ≠ k') (p : ℕ) :
    ∃ v w, coll.insert k (some p) = (v, .ok, []) ∧ v.insert k' (some p) = (w, .ok, []) ∧
      w.Chained w.get ∧ ∀ i, w.get i = if i = k ∨ i = k' then some (some p) else coll.get i := by
  obtain ⟨v, hv, -, -⟩ := h.insert_of_none hk (some p)
  obtain ⟨hget, hchained⟩ := h.get_insert k (some p)
  rw [hv] at hget hchained
  have hget (i : ℕ) : v.get i = update coll.get k (some (some p)) i := congrFun hget i
  have hnone : v.get k' = none := (hget k').trans ((update_of_ne hne.symm ..).trans hk')
  obtain ⟨w, hw, -, -⟩ := hchained.insert_of_none hnone (some p)
  obtain ⟨hget', hchained'⟩ := hchained.get_insert k' (some p)
  rw [hw] at hget' hchained'
  refine ⟨v, w, hv, hw, hchained', fun i ↦ (congrFun hget' i).trans ?_⟩
  rw [update_apply]
  split_ifs with hlast hkeys hkeys
  · rfl
  · exact absurd (.inr hlast) hkeys
  · rw [hget, hkeys.resolve_right hlast, update_self]
  · exact (hget i).trans (update_of_ne (fun heq ↦ hkeys (.inl heq)) ..)

theorem add (h : RegistryKept t) (hfree : KeysFree t (.add ctxt srbFlag mbmsFlag rbId chanId mode))
    (ht : registryStep rlcMaxLc (.add ctxt srbFlag mbmsFlag rbId chanId mode) t = some t') : RegistryKept t' := by
  obtain ⟨s, bearers, removed⟩ := t
  rw [registryStep] at ht
  obtain ⟨⟨s', returned⟩, hs', rfl⟩ := Option.map_eq_some_iff.mp ht
  rw [Registry.rrcRlcAddRlc] at hs'
  split_ifs at hs' with hplain
  rw [addKeys_eq] at hs'
  dsimp only at hs'
  rcases hfree with hsome | hnone
  · -- The bearer is registered, and its entity is returned.
    obtain ⟨⟨lcId, p⟩, hp⟩ := Option.ne_none_iff_exists'.mp hsome
    have hget := (h.found _ lcId p hp).1
    dsimp only at hp hget
    rw [hget] at hs'
    dsimp only at hs'
    split_ifs at hs' with hmode
    cases hs'
    dsimp only
    rw [hp, Option.getD_some, ← hp, update_eq_self]
    exact h
  · rw [addKeys_eq] at hnone
    dsimp only at hnone
    obtain ⟨v, w, hv, hw, hchained, hget⟩ := insertTwice h.chained hnone.1 hnone.2 (keys_ne hplain s) s.nextUnion
    have hnew : bearers (s.bearer ctxt srbFlag mbmsFlag rbId) = none := by
      refine Option.eq_none_iff_forall_ne_some.mpr fun ⟨lcId, p⟩ hp ↦ ?_
      have hold := (h.found _ lcId p hp).1
      exact absurd (hold.symm.trans hnone.1) nofun
    rw [hnone.1] at hs'
    simp only [hv, hw, List.append_nil, Registry.release, List.foldl_nil, and_self, if_true, Option.some.injEq,
      Prod.mk.injEq] at hs'
    obtain ⟨rfl, rfl⟩ := hs'
    dsimp only
    rw [hnew, Option.getD_none]
    have hcases {b : RlcBearer} {lcId p : ℕ}
        (hb : update bearers (s.bearer ctxt srbFlag mbmsFlag rbId) (some (chanId, s.nextUnion)) b = some (lcId, p)) :
        b = s.bearer ctxt srbFlag mbmsFlag rbId ∧ lcId = chanId ∧ p = s.nextUnion ∨
          bearers b = some (lcId, p) ∧ p ≠ s.nextUnion := by
      rw [update_apply] at hb
      split_ifs at hb with heq
      · cases hb
        exact .inl ⟨heq, rfl, rfl⟩
      · exact .inr ⟨hb, (h.lt_next b lcId p hb).ne⟩
    refine ⟨⟨fun b lcId p hb ↦ ?_, fun b b' lcId lcId' p hb hb' ↦ ?_, fun k d hk ↦ ?_, ?_⟩, hchained,
      fun b lcId p hb ↦ ?_, h.removed_eq⟩
    · rcases hcases hb with ⟨rfl, rfl, rfl⟩ | ⟨hold, hne⟩
      · refine ⟨(hget _).trans (if_pos (.inl rfl)), (hget _).trans (if_pos (.inr rfl)), ?_⟩
        dsimp only
        rw [update_self, update_self]
        exact ⟨rfl, rfl⟩
      · obtain ⟨hkey, hkeyLcid, hlive⟩ := h.found b lcId p hold
        have hother {k : ℕ} (hk : s.coll.get k = some (some p)) : w.get k = some (some p) := by
          rw [hget, if_neg, hk]
          rintro (rfl | rfl)
          · exact absurd (hk.symm.trans hnone.1) nofun
          · exact absurd (hk.symm.trans hnone.2) nofun
        refine ⟨hother hkey, hother hkeyLcid, ?_⟩
        dsimp only
        rw [update_of_ne hne, update_of_ne hne]
        exact hlive
    · rcases hcases hb with ⟨rfl, rfl, rfl⟩ | ⟨hold, hne⟩ <;> rcases hcases hb' with ⟨rfl, rfl, heq⟩ | ⟨hold', hne'⟩
      · rfl
      · exact absurd rfl hne'
      · exact absurd heq hne
      · exact h.separate b b' lcId lcId' p hold hold'
    · have hk := (hget k).symm.trans hk
      split_ifs at hk with hkeys
      · cases hk
        exact ⟨_, chanId, s.nextUnion, update_self .., rfl, hkeys⟩
      · obtain ⟨b, lcId, p, hb, rfl, hor⟩ := h.only k d hk
        refine ⟨b, lcId, p, (update_of_ne ?_ ..).trans hb, rfl, hor⟩
        rintro rfl
        exact absurd (hb.symm.trans hnew) nofun
    · dsimp only
      rw [show removed = [] from h.removed_eq]
      exact List.forall_mem_nil _
    · rcases hcases hb with ⟨rfl, rfl, rfl⟩ | ⟨hold, -⟩
      · exact Nat.lt_succ_self _
      · exact (h.lt_next b lcId p hold).trans (Nat.lt_succ_self _)

/-- The tables of the MBMS bearers and the logical channels that the entities store do not matter. -/
theorem congr {u : Registry} {bearers : RlcBearer → Option (ℕ × ℕ)} {removed : List ℕ}
    (h : RegistryKept ⟨s, bearers, removed⟩) (hcoll : u.coll = s.coll) (hnext : u.nextUnion = s.nextUnion)
    (hunions : ∀ p, (u.unions p).releases = (s.unions p).releases ∧ (u.unions p).freed = (s.unions p).freed) :
    RegistryKept ⟨u, bearers, removed⟩ where
  found b lcId p hb := by
    dsimp only
    rw [hcoll, (hunions p).1, (hunions p).2]
    exact h.found b lcId p hb
  separate := h.separate
  only k d hk := h.only k d (hcoll ▸ hk)
  released p hp := (hunions p).1.trans (h.released p hp)
  chained := by
    dsimp only
    rw [hcoll]
    exact h.chained
  lt_next b lcId p hb := (h.lt_next b lcId p hb).trans_eq hnext.symm
  removed_eq := h.removed_eq

/-- Nothing is removed where the bearer is not registered. -/
theorem remove (h : RegistryKept t) (hfree : KeysFree t (.remove ctxt srbFlag mbmsFlag rbId))
    (ht : registryStep rlcMaxLc (.remove ctxt srbFlag mbmsFlag rbId) t = some t') : RegistryKept t' := by
  obtain ⟨s, bearers, removed⟩ := t
  obtain ⟨hnone, hcleared⟩ := hfree
  rw [registryStep] at ht
  obtain ⟨s', hs', rfl⟩ := Option.map_eq_some_iff.mp ht
  rw [Registry.rrcRlcRemoveRlc] at hs'
  split_ifs at hs' with hrb
  have hsame : (s.removeArgs ctxt srbFlag mbmsFlag rbId).1.coll = s.coll ∧
      (s.removeArgs ctxt srbFlag mbmsFlag rbId).1.unions = s.unions ∧
      (s.removeArgs ctxt srbFlag mbmsFlag rbId).1.nextUnion = s.nextUnion := by
    cases mbmsFlag <;> exact ⟨rfl, rfl, rfl⟩
  obtain ⟨⟨u, lcid, key⟩, hargs⟩ : ∃ r, s.removeArgs ctxt srbFlag mbmsFlag rbId = r := ⟨_, rfl⟩
  rw [hargs] at hs' hsame
  dsimp only at hs' hsame
  obtain ⟨hcoll, hunions, hnext⟩ := hsame
  rw [Registry.missesLcid, hargs] at hcleared
  have hidle : u.removeKey ctxt srbFlag lcid key = u := by
    rw [Registry.removeKey]
    split
    · rename_i p hp
      dsimp only at hcleared
      rw [hp, Option.join_some, Option.all_some, Option.isNone_iff_eq_none] at hcleared
      rw [hcleared]
    · rfl
  rw [hidle] at hs'
  cases hs'
  dsimp only at hnone ⊢
  have hbearers : update bearers (s.bearer ctxt srbFlag mbmsFlag rbId) none = bearers := by
    rw [← hnone, update_eq_self]
  rw [hbearers, hnone, Option.map_none, Option.toList_none, List.append_nil]
  exact h.congr hcoll hnext fun p ↦ hunions ▸ ⟨rfl, rfl⟩

theorem configReq (h : RegistryKept t) : RegistryKept { t with registry := t.registry.configReq key chanId } := by
  obtain ⟨s, bearers, removed⟩ := t
  dsimp only
  rw [Registry.configReq]
  split
  · rename_i p hp
    refine h.congr rfl rfl fun p' ↦ ?_
    rcases eq_or_ne p' p with rfl | hne
    · dsimp only
      rw [update_self]
      exact ⟨rfl, rfl⟩
    · dsimp only
      rw [update_of_ne hne]
      exact ⟨rfl, rfl⟩
  · exact h

theorem init (counter : ℕ) : RegistryKept ⟨.init counter, fun _ ↦ none, []⟩ where
  found b lcId p hb := by cases hb
  separate b b' lcId lcId' p hb := by cases hb
  only k d hk := by cases hk
  released := List.forall_mem_nil _
  chained := .create (by decide) counter _
  lt_next b lcId p hb := by cases hb
  removed_eq := rfl

theorem step {x : RegistryEvent} (h : RegistryKept t) (hfree : KeysFree t x)
    (ht : registryStep rlcMaxLc x t = some t') : RegistryKept t' := by
  cases x with
  | add ctxt srbFlag mbmsFlag rbId chanId mode => exact h.add hfree ht
  | remove ctxt srbFlag mbmsFlag rbId => exact h.remove hfree ht
  | configReq key chanId =>
    obtain rfl := Option.some.inj ht
    exact h.configReq
  | setMbms ids =>
    obtain rfl := Option.some.inj ht
    exact h.congr rfl rfl fun p ↦ ⟨rfl, rfl⟩

end RegistryKept

/-- In every run of additions that find their keys free and of removals of bearers that are not registered, the
collection stays consistent. -/
theorem registryConsistent_of_run {counter : ℕ}
    (h : GuardedRun (registryStep rlcMaxLc) KeysFree ⟨.init counter, fun _ ↦ none, []⟩ t) : RegistryConsistent t :=
  (h.invariant (P := RegistryKept) (.init counter) fun _ _ _ hb hfree hx ↦ hb.step hfree hx).toRegistryConsistent

/-- The context of one UE at the eNB. -/
def oneUe : ProtocolCtxt := ⟨0, 0x1234, true⟩

theorem registryConsistent_of_bearers : ∃ t,
    [RegistryEvent.add oneUe true false 1 1 .am, .configReq (rlcCollKeyValue oneUe 1 true) 1,
      .add oneUe false false 1 3 .um, .add oneUe true false 1 1 .am, .remove oneUe false false 2,
      .add oneUe false true 0 0 .um].foldlM
        (fun t x ↦ if KeysFree t x then registryStep 528 x t else none) ⟨.init 0, fun _ ↦ none, []⟩ = some t ∧
      RegistryConsistent t ∧ t.bearers (.plain oneUe false 1) = some (3, 1) := by
  have hrun : ([RegistryEvent.add oneUe true false 1 1 .am, .configReq (rlcCollKeyValue oneUe 1 true) 1,
      .add oneUe false false 1 3 .um, .add oneUe true false 1 1 .am, .remove oneUe false false 2,
      .add oneUe false true 0 0 .um].foldlM
        (fun t x ↦ if KeysFree t x then registryStep 528 x t else none) ⟨.init 0, fun _ ↦ none, []⟩).map
          (fun t ↦ t.bearers (.plain oneUe false 1)) = some (some (3, 1)) := by decide
  obtain ⟨t, ht, hbearer⟩ := Option.map_eq_some_iff.mp hrun
  exact ⟨t, ht, registryConsistent_of_run (.of_checked ht), hbearer⟩

/-- The entity of a bearer that is removed is released twice. A bearer with the logical channel of another one is not
added, but the entity of the other one is released. -/
theorem not_registryConsistent :
    (∃ t, [RegistryEvent.add oneUe true false 1 1 .am, .configReq (rlcCollKeyValue oneUe 1 true) 1,
      .remove oneUe true false 1].foldlM (fun t x ↦ registryStep 528 x t) ⟨.init 0, fun _ ↦ none, []⟩ = some t ∧
      t.removed = [0] ∧ (t.registry.unions 0).releases = 2 ∧ ¬RegistryConsistent t) ∧
    ∃ t, [RegistryEvent.add oneUe false false 1 3 .um, .add oneUe false false 2 3 .um].foldlM
        (fun t x ↦ registryStep 528 x t) ⟨.init 0, fun _ ↦ none, []⟩ = some t ∧
      t.bearers (.plain oneUe false 1) = some (3, 0) ∧ (t.registry.unions 0).releases = 1 ∧
      ¬RegistryConsistent t := by
  constructor
  · have hrun : ([RegistryEvent.add oneUe true false 1 1 .am, .configReq (rlcCollKeyValue oneUe 1 true) 1,
        .remove oneUe true false 1].foldlM (fun t x ↦ registryStep 528 x t) ⟨.init 0, fun _ ↦ none, []⟩).map
          (fun t ↦ (t.removed, (t.registry.unions 0).releases)) = some ([0], 2) := by decide
    obtain ⟨t, ht, hvalues⟩ := Option.map_eq_some_iff.mp hrun
    simp only [Prod.mk.injEq] at hvalues
    refine ⟨t, ht, hvalues.1, hvalues.2, fun h ↦ ?_⟩
    have honce := h.released 0 (by simp [hvalues.1])
    omega
  · have hrun : ([RegistryEvent.add oneUe false false 1 3 .um, .add oneUe false false 2 3 .um].foldlM
        (fun t x ↦ registryStep 528 x t) ⟨.init 0, fun _ ↦ none, []⟩).map
          (fun t ↦ (t.bearers (.plain oneUe false 1), (t.registry.unions 0).releases)) = some (some (3, 0), 1) := by
      decide
    obtain ⟨t, ht, hvalues⟩ := Option.map_eq_some_iff.mp hrun
    simp only [Prod.mk.injEq] at hvalues
    refine ⟨t, ht, hvalues.1, hvalues.2, fun h ↦ ?_⟩
    have hlive := (h.found _ 3 0 hvalues.1).2.2.1
    omega

end EdgeSlice.Rlc
