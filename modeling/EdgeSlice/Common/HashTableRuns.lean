import EdgeSlice.Common.HashTable
import EdgeSlice.GuardedRun
import Mathlib.Data.Set.Card

namespace EdgeSlice.Common.HashTable

open Function

variable {K D : Type} {t : HashTable K D} {m : K → Option (Option D)} {k : K} {chain : List (HashNode K D)} {n : ℕ}

section Specification

variable [DecidableEq K] [DecidableEq D]

/-- What the operations have been called for, and what `freefunc` has got. -/
structure History (K D : Type) where
  /-- The last value of a key that has been inserted and not removed. -/
  value : K → Option (Option D)
  inserted : List D
  freed : List D

inductive Operation (K D : Type)
  | insert (k : K) (data : Option D)
  | remove (k : K)
  | resize (size : ℕ)

/-- One operation; `none` for a division by zero. -/
def step (x : Operation K D) (s : HashTable K D × History K D) : Option (HashTable K D × History K D) :=
  if s.1.size = 0 then none
  else
    match x with
    | .insert k data =>
      let (t, _, freed) := s.1.insert k data
      some (t, ⟨update s.2.value k (some data), s.2.inserted ++ data.toList, s.2.freed ++ freed⟩)
    | .remove k =>
      let (t, _, freed) := s.1.remove k
      some (t, { s.2 with value := update s.2.value k none, freed := s.2.freed ++ freed })
    | .resize size =>
      let (t, freed) := s.1.resize size
      some (t, { s.2 with freed := s.2.freed ++ freed })

/-- The table behaves as a finite map that owns its values. -/
structure RefinesMap (s : HashTable K D × History K D) : Prop where
  get_eq : ∀ k, s.1.get k = s.2.value k
  numElements_eq : s.1.numElements = {k | (s.2.value k).isSome}.ncard
  /-- Every element is visited once, and each value that has been inserted is there or has been freed. -/
  visited : ∃ l, s.1.applyFunctOnElements = some l ∧ (l.map Prod.fst).Nodup ∧
    (∀ k data, (k, data) ∈ l ↔ s.2.value k = some data) ∧
    ∀ v, s.2.inserted.count v = (l.map Prod.snd).count (some v) + s.2.freed.count v

/-- The operations for which the code is right: a table with elements is not resized, and `unsigned int` counts its
buckets or its elements. -/
def Careful (s : HashTable K D × History K D) : Operation K D → Prop
  | .insert k _ =>
    (s.1.get k = none → s.1.numElements + 1 < 2 ^ 64) ∧
      (s.1.size < 2 ^ 32 ∨ s.1.bucket k < 2 ^ 32 ∧ (s.1.get k = none → s.1.numElements + 1 < 2 ^ 32))
  | .remove _ => True
  | .resize size => 0 < size ∧ s.1.numElements = 0

instance : ∀ (s : HashTable K D × History K D) (x : Operation K D), Decidable (Careful s x)
  | _, .insert _ _ => inferInstanceAs (Decidable (_ ∧ _))
  | _, .remove _ => inferInstanceAs (Decidable True)
  | _, .resize _ => inferInstanceAs (Decidable (_ ∧ _))

end Specification

/-- The elements of the first buckets. -/
def elements (t : HashTable K D) (n : ℕ) : List (K × Option D) :=
  (List.range n).flatMap fun i ↦ (t.nodes i).map fun node ↦ (node.key, node.data)

/-- The loop over the buckets gets to every element. -/
def Countable (t : HashTable K D) : Prop :=
  t.size < 2 ^ 32 ∨ t.numElements < 2 ^ 32 ∧ ∀ i, t.nodes i ≠ [] → i < 2 ^ 32

theorem Countable.update (h : t.Countable) {numElements : ℕ}
    (hk : t.size < 2 ^ 32 ∨ t.bucket k < 2 ^ 32 ∧ numElements < 2 ^ 32) :
    Countable { t with nodes := update t.nodes (t.bucket k) chain, numElements := numElements } := by
  rcases hk with hsize | ⟨hbucket, hfew⟩
  · exact .inl hsize
  · refine h.imp_right fun hnear ↦ ⟨hfew, fun i hi ↦ ?_⟩
    rcases eq_or_ne i (t.bucket k) with rfl | hne
    · exact hbucket
    · exact hnear.2 i (by simpa only [update_of_ne hne] using hi)

/-- A table without elements. -/
theorem Represents.nodes_eq_nil (hs : t.Represents m) (hzero : t.numElements = 0) (i : ℕ) : t.nodes i = [] := by
  refine List.eq_nil_iff_forall_not_mem.mpr fun node hnode ↦ ?_
  have hle := hs.length_le node.key
  rw [hs.bucket_eq i node hnode, hzero] at hle
  exact absurd (List.length_pos_of_mem hnode) (Nat.not_lt.mpr hle)

theorem resize_empty [DecidableEq K] (hempty : ∀ i, t.nodes i = []) (size : ℕ) :
    t.resize size = ({ t with size := size, nodes := fun _ ↦ [] }, []) := by
  have hmove (ns : List ℕ) (m : Moving K D) (hm : m.1 = t) : ns.foldl moveBucket m = m := by
    induction ns with
    | nil => rfl
    | cons n ns ih =>
      rw [List.foldl_cons, moveBucket, hm, hempty n]
      exact ih
  rw [resize, hmove _ _ rfl, create]

/-- The elements of the first buckets are all elements, as soon as they are as many. -/
theorem elements_eq_of_le (hn : n ≤ t.size) (hlength : (t.elements t.size).length ≤ (t.elements n).length) :
    t.elements n = t.elements t.size := by
  obtain ⟨behind, hbehind⟩ := Nat.exists_eq_add_of_le hn
  have hprefix : t.elements n <+: t.elements t.size := by
    rw [hbehind, elements, elements, List.range_add, List.flatMap_append]
    exact List.prefix_append _ _
  exact hprefix.eq_of_length_le hlength

theorem length_elements (t : HashTable K D) (n : ℕ) :
    (t.elements n).length = ∑ i ∈ Finset.range n, (t.nodes i).length := by
  induction n with
  | zero => rfl
  | succ n ih =>
    rw [Finset.sum_range_succ, ← ih, elements, elements, List.range_succ]
    simp

theorem elements_succ (t : HashTable K D) (n : ℕ) :
    t.elements (n + 1) = t.elements n ++ (t.nodes n).map fun node ↦ (node.key, node.data) := by
  simp [elements, List.range_succ]

theorem mem_elements {data : Option D} : (k, data) ∈ t.elements n ↔ ∃ i < n, ⟨k, data⟩ ∈ t.nodes i := by
  simp only [elements, List.mem_flatMap, List.mem_range, List.mem_map, Prod.mk.injEq]
  constructor
  · rintro ⟨i, hi, node, hnode, rfl, rfl⟩
    exact ⟨i, hi, hnode⟩
  · rintro ⟨i, hi, hnode⟩
    exact ⟨i, hi, _, hnode, rfl, rfl⟩

namespace Represents

theorem length_elements_eq (hs : t.Represents m) : (t.elements t.size).length = t.numElements := by
  rw [length_elements, hs.numElements_eq]

theorem mem_elements_iff (hs : t.Represents m) {data : Option D} :
    (k, data) ∈ t.elements t.size ↔ m k = some data := by
  rw [mem_elements, hs.eq_some_iff]
  constructor
  · rintro ⟨i, -, hnode⟩
    obtain rfl := hs.bucket_eq i _ hnode
    exact hnode
  · exact fun hnode ↦ ⟨_, hs.bucket_lt k, hnode⟩

theorem nodup_elements (hs : t.Represents m) (n : ℕ) : ((t.elements n).map Prod.fst).Nodup := by
  induction n with
  | zero => exact List.nodup_nil
  | succ n ih =>
    rw [elements_succ, List.map_append, List.map_map]
    refine List.nodup_append.mpr ⟨ih, hs.nodup n, ?_⟩
    rintro k hk _ hlast rfl
    obtain ⟨⟨k', data⟩, hbefore, rfl⟩ := List.mem_map.mp hk
    obtain ⟨i, hi, hnode⟩ := mem_elements.mp hbefore
    obtain ⟨node, hnode', hkey⟩ := List.mem_map.mp hlast
    have hfirst := hs.bucket_eq i _ hnode
    have hsecond := hs.bucket_eq n _ hnode'
    have hsame : node.key = k' := hkey
    rw [hsame] at hsecond
    exact absurd (hfirst.symm.trans hsecond) hi.ne

/-- `num_elements` is the number of keys. -/
theorem ncard_keys (hs : t.Represents m) : t.numElements = {k | (m k).isSome}.ncard := by
  classical
  have hset : {k | (m k).isSome} = (((t.elements t.size).map Prod.fst).toFinset : Set K) := by
    ext k
    simp only [Set.mem_ofPred_eq, Option.isSome_iff_exists, List.coe_toFinset, List.mem_map, Prod.exists,
      exists_and_right, exists_eq_right, hs.mem_elements_iff]
  rw [hset, Set.ncard_coe_finset, List.toFinset_card_of_nodup (hs.nodup_elements _), List.length_map,
    hs.length_elements_eq]

end Represents

/-- The loop has visited the first buckets when it comes to a bucket, and ends with all of them. -/
theorem Represents.applyLoop_eq (hs : t.Represents m) (hcount : t.Countable) {fuel c i : ℕ} (hi : i ≤ t.size)
    (hfuel : t.size < i + fuel) (hc : c = (t.elements i).length % 2 ^ 32)
    (hnear : i < 2 ^ 32 ∨ (t.elements i).length = t.numElements ∧ t.numElements < 2 ^ 32) :
    t.applyLoop fuel (i % 2 ^ 32) c (t.elements i) = some (t.elements t.size) := by
  induction fuel generalizing i c with
  | zero => omega
  | succ fuel ih =>
    rw [applyLoop]
    split_ifs with hmore
    · have hlt : i < 2 ^ 32 := by
        refine hnear.resolve_right fun hall ↦ ?_
        rw [hall.1, Nat.mod_eq_of_lt hall.2] at hc
        omega
      have hnext : (i % 2 ^ 32 + 1) % 2 ^ 32 = (i + 1) % 2 ^ 32 := Nat.mod_add_mod ..
      rw [Nat.mod_eq_of_lt hlt] at hmore
      rw [hnext, Nat.mod_eq_of_lt hlt, ← elements_succ]
      refine ih hmore.2 (by omega) ?_ ?_
      · rw [elements_succ, List.length_append, List.length_map, hc, Nat.mod_add_mod]
      · rcases hcount with hsize | ⟨hfew, hbucket⟩
        · exact .inl (by omega)
        · -- No element is behind the last bucket that 32 bits can count.
          refine Nat.lt_or_ge (i + 1) (2 ^ 32) |>.imp_right fun hlast ↦ ⟨?_, hfew⟩
          rw [length_elements, hs.numElements_eq]
          refine Finset.sum_subset (Finset.range_subset_range.mpr hmore.2) fun j _ hj ↦ ?_
          rw [Finset.mem_range] at hj
          exact List.length_eq_zero_iff.mpr (not_not.mp fun hne ↦ absurd (hbucket j hne) (by omega))
    · congr 1
      refine elements_eq_of_le hi ?_
      rcases Nat.lt_or_ge c t.numElements with hlt | hge
      · have hend : t.size ≤ i % 2 ^ 32 := Nat.not_lt.mp fun hmod ↦ hmore ⟨hlt, hmod⟩
        obtain rfl : i = t.size := hi.antisymm (hend.trans (Nat.mod_le _ _))
        exact le_rfl
      · rw [hs.length_elements_eq]
        exact hge.trans (hc.trans_le (Nat.mod_le _ _))

theorem Represents.applyFunctOnElements_eq (hs : t.Represents m) (hcount : t.Countable) :
    t.applyFunctOnElements = some (t.elements t.size) :=
  hs.applyLoop_eq hcount (Nat.zero_le _) (by omega) rfl (.inl (by decide))

section Values

variable [DecidableEq D]

/-- How often a value is stored. -/
def stored (v : D) (t : HashTable K D) : ℕ :=
  ∑ i ∈ Finset.range t.size, ((t.nodes i).map HashNode.data).count (some v)

/-- What the operations keep. -/
structure Kept (s : HashTable K D × History K D) : Prop where
  represents : s.1.Represents s.2.value
  few : s.1.numElements < 2 ^ 64
  countable : s.1.Countable
  owned : ∀ v, s.2.inserted.count v = s.1.stored v + s.2.freed.count v

theorem count_toList (old : Option D) (v : D) : old.toList.count v = if old = some v then 1 else 0 := by
  cases old with
  | none => rfl
  | some d => simp [List.count_singleton]

theorem count_data (before behind : List (HashNode K D)) (k : K) (data : Option D) (v : D) :
    ((before ++ ⟨k, data⟩ :: behind).map HashNode.data).count (some v) =
      ((before ++ behind).map HashNode.data).count (some v) + data.toList.count v := by
  rw [count_toList]
  simp only [List.map_append, List.map_cons, List.count_append, List.count_cons, beq_iff_eq, Nat.add_assoc]

/-- The chain of a key is replaced. -/
theorem stored_update (hsize : 0 < t.size) (k : K) (chain : List (HashNode K D)) (numElements : ℕ) (v : D) :
    stored v { t with nodes := update t.nodes (t.bucket k) chain, numElements := numElements } +
        ((t.nodes (t.bucket k)).map HashNode.data).count (some v) =
      stored v t + (chain.map HashNode.data).count (some v) :=
  RingQueue.sum_update (Nat.mod_lt _ hsize) t.nodes (fun chain ↦ (chain.map HashNode.data).count (some v)) chain

theorem stored_eq_count (t : HashTable K D) (v : D) :
    t.stored v = ((t.elements t.size).map Prod.snd).count (some v) := by
  have hbuckets (n : ℕ) : ∑ i ∈ Finset.range n, ((t.nodes i).map HashNode.data).count (some v) =
      ((t.elements n).map Prod.snd).count (some v) := by
    induction n with
    | zero => rfl
    | succ n ih =>
      rw [Finset.sum_range_succ, ih, elements_succ, List.map_append, List.count_append, List.map_map]
      rfl
  exact hbuckets t.size

theorem Kept.create {size : ℕ} (hsize : 0 < size) (hashfunc : K → ℕ) :
    Kept (create 0 size hashfunc, (⟨fun _ ↦ none, [], []⟩ : History K D)) where
  represents := .create hsize hashfunc
  few := (by decide : 0 < 2 ^ 64)
  countable := .inr ⟨(by decide : 0 < 2 ^ 32), fun _ hi ↦ absurd rfl hi⟩
  owned v := by simp [stored, HashTable.create]

variable [DecidableEq K] {h : History K D}

theorem Kept.insert (hs : Kept (t, h)) (data : Option D) (hcareful : Careful (t, h) (.insert k data)) :
    ∃ u rc freed, t.insert k data = (u, rc, freed) ∧
      Kept (u, ⟨update h.value k (some data), h.inserted ++ data.toList, h.freed ++ freed⟩) := by
  have hsize := hs.represents.size_pos
  have hget := hs.represents.get_eq k
  obtain ⟨hfew, hcount⟩ := hcareful
  cases hm : h.value k with
  | some old =>
    obtain ⟨u, hu, hrep, rfl⟩ := hs.represents.insert_of_some hm data
    have hmem := (hs.represents.eq_some_iff k old).mp hm
    obtain ⟨before, behind, hold, hnew, -⟩ := exists_split hmem (hs.represents.nodup _) data
    have hcountable := hs.countable.imp_right fun hnear ↦ And.intro (hnear.2 _ (List.ne_nil_of_mem hmem)) hnear.1
    refine ⟨_, _, _, hu, hrep, hs.few, hs.countable.update hcountable, fun v ↦ ?_⟩
    have hstored := stored_update hsize k (overwrite k data (t.nodes (t.bucket k))) t.numElements v
    have howned := hs.owned v
    have hbefore := (congrArg (fun chain ↦ (chain.map HashNode.data).count (some v)) hold).trans (count_data ..)
    have hafter := (congrArg (fun chain ↦ (chain.map HashNode.data).count (some v)) hnew).trans (count_data ..)
    simp only [List.count_append]
    dsimp only at howned hstored hbefore hafter ⊢
    omega
  | none =>
    have hnone := hget.trans hm
    have hlt := hfew hnone
    obtain ⟨u, hu, hrep, rfl⟩ := hs.represents.insert_of_none hm hlt data
    have hcountable := hcount.imp_right fun hnear ↦ And.intro hnear.1 (hnear.2 hnone)
    refine ⟨_, _, _, hu, hrep, hlt, hs.countable.update hcountable, fun v ↦ ?_⟩
    have hstored := stored_update hsize k (⟨k, data⟩ :: t.nodes (t.bucket k)) (t.numElements + 1) v
    have howned := hs.owned v
    have hfirst := count_data [] (t.nodes (t.bucket k)) k data v
    simp only [List.nil_append] at hfirst
    rw [hfirst] at hstored
    simp only [List.count_append, List.count_nil]
    dsimp only at howned hstored ⊢
    omega

theorem Kept.remove (hs : Kept (t, h)) (k : K) : ∃ u rc freed, t.remove k = (u, rc, freed) ∧
    Kept (u, { h with value := update h.value k none, freed := h.freed ++ freed }) := by
  have hsize := hs.represents.size_pos
  cases hm : h.value k with
  | some old =>
    obtain ⟨u, hu, hrep, rfl⟩ := hs.represents.remove_of_some hm hs.few
    have hmem := (hs.represents.eq_some_iff k old).mp hm
    obtain ⟨before, behind, hold, -, herase⟩ := exists_split hmem (hs.represents.nodup _) old
    have hfew : t.numElements - 1 < 2 ^ 64 := (Nat.sub_le _ _).trans_lt hs.few
    have hcountable := hs.countable.imp_right fun hnear ↦
      And.intro (hnear.2 _ (List.ne_nil_of_mem hmem)) ((Nat.sub_le _ 1).trans_lt hnear.1)
    refine ⟨_, _, _, hu, hrep, hfew, hs.countable.update hcountable, fun v ↦ ?_⟩
    have hstored := stored_update hsize k ((t.nodes (t.bucket k)).eraseP (·.key = k)) (t.numElements - 1) v
    have howned := hs.owned v
    have hbefore := (congrArg (fun chain ↦ (chain.map HashNode.data).count (some v)) hold).trans (count_data ..)
    have hafter := congrArg (fun chain ↦ (chain.map HashNode.data).count (some v)) herase
    simp only [List.count_append]
    dsimp only at howned hstored hbefore hafter ⊢
    omega
  | none =>
    refine ⟨t, _, _, hs.represents.remove_of_none hm, ?_, hs.few, hs.countable, fun v ↦ ?_⟩
    · rw [← hm, update_eq_self]
      exact hs.represents
    · simp only [List.append_nil]
      exact hs.owned v

theorem Kept.resize (hs : Kept (t, h)) {size : ℕ} (hsize : 0 < size) (hzero : t.numElements = 0) :
    ∃ u freed, t.resize size = (u, freed) ∧ Kept (u, { h with freed := h.freed ++ freed }) := by
  have hempty : ∀ i, t.nodes i = [] := hs.represents.nodes_eq_nil hzero
  refine ⟨_, _, resize_empty hempty size, ?_, hs.few, .inr ⟨?_, ?_⟩, fun v ↦ ?_⟩
  · refine ⟨⟨hsize, fun i node hnode ↦ ?_, fun i ↦ List.nodup_nil, fun k data ↦ ?_⟩, ?_⟩
    · cases hnode
    · exact (hs.represents.eq_some_iff k data).trans (by simp [hempty])
    · simpa using hzero
  · exact hzero.trans_lt (by decide)
  · exact fun i hi ↦ absurd rfl hi
  · have howned := hs.owned v
    have hnone : t.stored v = 0 := by simp [stored, hempty]
    rw [hnone] at howned
    simpa [stored] using howned

variable {s : HashTable K D × History K D}

/-- One operation keeps the relation between the table and the map. -/
theorem Kept.step {s' : HashTable K D × History K D} {x : Operation K D} (hs : Kept s) (hcareful : Careful s x)
    (hx : step x s = some s') : Kept s' := by
  obtain ⟨t, h⟩ := s
  have hsize : t.size ≠ 0 := hs.represents.size_pos.ne'
  rw [HashTable.step.eq_def, if_neg hsize] at hx
  cases x with
  | insert k data =>
    obtain ⟨u, rc, freed, hu, hkept⟩ := hs.insert data hcareful
    simp only [hu, Option.some.injEq] at hx
    exact hx ▸ hkept
  | remove k =>
    obtain ⟨u, rc, freed, hu, hkept⟩ := hs.remove k
    simp only [hu, Option.some.injEq] at hx
    exact hx ▸ hkept
  | resize size =>
    obtain ⟨u, freed, hu, hkept⟩ := hs.resize hcareful.1 hcareful.2
    simp only [hu, Option.some.injEq] at hx
    exact hx ▸ hkept

theorem Kept.refinesMap (hs : Kept s) : RefinesMap s where
  get_eq := hs.represents.get_eq
  numElements_eq := hs.represents.ncard_keys
  visited := by
    refine ⟨_, hs.represents.applyFunctOnElements_eq hs.countable, hs.represents.nodup_elements _,
      fun k data ↦ hs.represents.mem_elements_iff, fun v ↦ ?_⟩
    rw [hs.owned v, stored_eq_count]

/-- From a table whose counter of elements happens to be zero, operations that meet the condition keep the table
equal to a map that owns its values. -/
theorem refinesMap_of_run {size : ℕ} (hsize : 0 < size) {hashfunc : K → ℕ}
    (h : GuardedRun step Careful (HashTable.create 0 size hashfunc, (⟨fun _ ↦ none, [], []⟩ : History K D)) s) :
    RefinesMap s :=
  (h.invariant (P := Kept) (Kept.create hsize hashfunc) fun _ _ _ hb hgood hx ↦ hb.step hgood hx).refinesMap

end Values

/-- An empty table of two buckets, and nothing has been done. -/
def emptyPair (numElements : ℕ) : HashTable ℕ ℕ × History ℕ ℕ := (create numElements 2 id, ⟨fun _ ↦ none, [], []⟩)

theorem refinesMap_of_overwrite : ∃ s,
    [Operation.resize 3, .insert 5 (some 7), .insert 8 (some 9), .insert 5 (some 6), .remove 8].foldlM
      (fun s x ↦ if Careful s x then step x s else none) (emptyPair 0) = some s ∧ RefinesMap s ∧
      s.2.freed = [7, 9] := by
  have hrun : ([Operation.resize 3, .insert 5 (some 7), .insert 8 (some 9), .insert 5 (some 6), .remove 8].foldlM
      (fun s x ↦ if Careful s x then step x s else none) (emptyPair 0)).map (fun s ↦ s.2.freed) =
        some [7, 9] := by decide
  obtain ⟨s, hs, hfreed⟩ := Option.map_eq_some_iff.mp hrun
  exact ⟨s, hs, refinesMap_of_run (by decide : 0 < 2) (.of_checked hs), hfreed⟩

/-- `num_elements` starts with what the allocated memory holds, and `hashtable_resize` frees the values that it
keeps. -/
theorem not_refinesMap : ¬ RefinesMap (emptyPair 1) ∧
    ∃ s, [Operation.insert 5 (some 7), .resize 3].foldlM (fun s x ↦ step x s) (emptyPair 0) = some s ∧
      s.1.get 5 = some (some 7) ∧ s.2.freed = [7] ∧ s.1.numElements = 0 ∧ ¬ RefinesMap s := by
  refine ⟨fun h ↦ ?_, ?_⟩
  · have hcount := h.numElements_eq
    simp [emptyPair, create] at hcount
  · have hrun : ([Operation.insert 5 (some 7), .resize 3].foldlM (fun s x ↦ step x s) (emptyPair 0)).map
        (fun s ↦ (s.1.get 5, s.2.freed, s.1.numElements)) = some (some (some 7), [7], 0) := by decide
    obtain ⟨s, hs, hvalues⟩ := Option.map_eq_some_iff.mp hrun
    simp only [Prod.mk.injEq] at hvalues
    obtain ⟨hget, hfreed, hcount⟩ := hvalues
    refine ⟨s, hs, hget, hfreed, hcount, fun h ↦ ?_⟩
    obtain ⟨l, hl, -, hmem, -⟩ := h.visited
    obtain rfl : l = [] := by simpa [applyFunctOnElements, applyLoop, hcount] using hl.symm
    exact absurd ((hmem 5 (some 7)).mpr ((h.get_eq 5).symm.trans hget)) List.not_mem_nil

end EdgeSlice.Common.HashTable
