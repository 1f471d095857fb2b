import EdgeSlice.RingQueue
import Mathlib.Algebra.Group.Nat.Defs
import Mathlib.Data.List.Nodup
import Mathlib.Logic.Function.Basic

namespace EdgeSlice.Common

open Function

/-- `hash_node_t`; a null pointer is `none`. -/
structure HashNode (K D : Type) where
  key : K
  data : Option D
  deriving DecidableEq

/-- `hash_table_t` without its `freefunc`, of which the operations say what it gets. -/
structure HashTable (K D : Type) where
  size : ℕ
  numElements : ℕ
  nodes : ℕ → List (HashNode K D)
  hashfunc : K → ℕ

/-- `hashtable_rc_t`. -/
inductive HashtableRc
  | ok
  | insertOverwrittenData
  | keyNotExists
  deriving DecidableEq

namespace HashTable

variable {K D : Type} [DecidableEq K]

/-- `hashtable_create`; nothing is written to `num_elements`. -/
def create (numElements size : ℕ) (hashfunc : K → ℕ) : HashTable K D :=
  ⟨size, numElements, fun _ ↦ [], hashfunc⟩

def bucket (k : K) (t : HashTable K D) : ℕ := t.hashfunc k % t.size

/-- The first node with a key in its chain. -/
def find (k : K) (t : HashTable K D) : Option (HashNode K D) := (t.nodes (t.bucket k)).find? (·.key = k)

/-- `hashtable_get`; `none` if the key does not exist. -/
def get (k : K) (t : HashTable K D) : Option (Option D) := (t.find k).map HashNode.data

/-- The data of the first node with a key is overwritten. -/
def overwrite (k : K) (data : Option D) : List (HashNode K D) → List (HashNode K D)
  | [] => []
  | node :: nodes => if node.key = k then { node with data := data } :: nodes else node :: overwrite k data nodes

/-- `hashtable_insert` where memory can be allocated, with what `freefunc` gets. -/
def insert (k : K) (data : Option D) (t : HashTable K D) : HashTable K D × HashtableRc × List D :=
  match t.find k with
  | some node =>
    ({ t with nodes := update t.nodes (t.bucket k) (overwrite k data (t.nodes (t.bucket k))) },
      .insertOverwrittenData, node.data.toList)
  | none =>
    ({ t with
      nodes := update t.nodes (t.bucket k) (⟨k, data⟩ :: t.nodes (t.bucket k))
      numElements := (t.numElements + 1) % 2 ^ 64 }, .ok, [])

/-- `hashtable_remove`, with what `freefunc` gets. -/
def remove (k : K) (t : HashTable K D) : HashTable K D × HashtableRc × List D :=
  match t.find k with
  | some node =>
    ({ t with
      nodes := update t.nodes (t.bucket k) ((t.nodes (t.bucket k)).eraseP (·.key = k))
      numElements := (t.numElements + 2 ^ 64 - 1) % 2 ^ 64 }, .ok, node.data.toList)
  | none => (t, .keyNotExists, [])

/-- The loop of `hashtable_apply_funct_on_elements` over the buckets, with its counters of 32 bits and the elements
that have been visited; `none` if it does not end. -/
def applyLoop (t : HashTable K D) : ℕ → ℕ → ℕ → List (K × Option D) → Option (List (K × Option D))
  | 0, _, _, _ => none
  | fuel + 1, i, numElements, visited =>
    if numElements < t.numElements ∧ i < t.size then
      applyLoop t fuel ((i + 1) % 2 ^ 32) ((numElements + (t.nodes i).length) % 2 ^ 32)
        (visited ++ (t.nodes i).map fun node ↦ (node.key, node.data))
    else some visited

/-- `hashtable_apply_funct_on_elements`: the elements that it visits. -/
def applyFunctOnElements (t : HashTable K D) : Option (List (K × Option D)) := t.applyLoop (t.size + 1) 0 0 []

/-- The table that is left, the new table and what `freefunc` has got. -/
abbrev Moving (K D : Type) := HashTable K D × HashTable K D × List D

/-- One node is moved. -/
def moveNode (node : HashNode K D) (m : Moving K D) : Moving K D :=
  let (newtbl, _, _) := m.2.1.insert node.key node.data
  let (t, _, freed) := m.1.remove node.key
  (t, newtbl, m.2.2 ++ freed)

/-- The nodes of a bucket are moved. -/
def moveBucket (m : Moving K D) (n : ℕ) : Moving K D := (m.1.nodes n).foldl (fun m node ↦ moveNode node m) m

/-- `hashtable_resize`, with what `freefunc` gets. -/
def resize (size : ℕ) (t : HashTable K D) : HashTable K D × List D :=
  let (t, newtbl, freed) := (List.range t.size).foldl moveBucket (t, create 0 size t.hashfunc, [])
  ({ t with size := newtbl.size, nodes := newtbl.nodes }, freed)

end HashTable

end EdgeSlice.Common

namespace EdgeSlice.Common.HashTable

open Function

variable {K D : Type} {t : HashTable K D} {m : K → Option (Option D)} {k k' : K} {data : Option D}
  {chain : List (HashNode K D)} {node : HashNode K D} {i : ℕ}

section Chains

variable [DecidableEq K]

theorem overwrite_keys (k : K) (data : Option D) (chain : List (HashNode K D)) :
    (overwrite k data chain).map HashNode.key = chain.map HashNode.key := by
  induction chain with
  | nil => rfl
  | cons node chain ih =>
    rw [overwrite]
    split_ifs <;> simp [ih]

theorem mem_overwrite (hnodup : (chain.map HashNode.key).Nodup) (hk : k ∈ chain.map HashNode.key) :
    node ∈ overwrite k data chain ↔ node = ⟨k, data⟩ ∨ node.key ≠ k ∧ node ∈ chain := by
  induction chain with
  | nil => simp at hk
  | cons first chain ih =>
    rw [List.map_cons, List.nodup_cons] at hnodup
    rw [overwrite]
    split_ifs with hfirst
    · subst hfirst
      have hrest : node ∈ chain → node.key ≠ first.key := by
        rintro hmem heq
        exact hnodup.1 (heq ▸ List.mem_map_of_mem hmem)
      simp only [List.mem_cons]
      constructor
      · rintro (rfl | hmem)
        · exact .inl rfl
        · exact .inr ⟨hrest hmem, .inr hmem⟩
      · rintro (rfl | ⟨hne, rfl | hmem⟩)
        · exact .inl rfl
        · exact absurd rfl hne
        · exact .inr hmem
    · have hk' : k ∈ chain.map HashNode.key := by
        rcases List.mem_cons.mp hk with rfl | hmem
        · exact absurd rfl hfirst
        · exact hmem
      rw [List.mem_cons, ih hnodup.2 hk', List.mem_cons]
      constructor
      · rintro (rfl | rfl | ⟨hne, hmem⟩)
        · exact .inr ⟨hfirst, .inl rfl⟩
        · exact .inl rfl
        · exact .inr ⟨hne, .inr hmem⟩
      · rintro (rfl | ⟨hne, rfl | hmem⟩)
        · exact .inr (.inl rfl)
        · exact .inl rfl
        · exact .inr (.inr ⟨hne, hmem⟩)

theorem mem_eraseP (hnodup : (chain.map HashNode.key).Nodup) :
    node ∈ chain.eraseP (·.key = k) ↔ node.key ≠ k ∧ node ∈ chain := by
  induction chain with
  | nil => simp
  | cons first chain ih =>
    rw [List.map_cons, List.nodup_cons] at hnodup
    rw [List.eraseP_cons]
    by_cases hfirst : first.key = k
    · subst hfirst
      have hrest : node ∈ chain → node.key ≠ first.key := by
        rintro hmem heq
        exact hnodup.1 (heq ▸ List.mem_map_of_mem hmem)
      simp only [decide_true, cond_true, List.mem_cons]
      constructor
      · exact fun hmem ↦ ⟨hrest hmem, .inr hmem⟩
      · rintro ⟨hne, rfl | hmem⟩
        · exact absurd rfl hne
        · exact hmem
    · simp only [hfirst, decide_false, cond_false, List.mem_cons, ih hnodup.2]
      constructor
      · rintro (rfl | ⟨hne, hmem⟩)
        · exact ⟨hfirst, .inl rfl⟩
        · exact ⟨hne, .inr hmem⟩
      · rintro ⟨hne, rfl | hmem⟩
        · exact .inl rfl
        · exact .inr ⟨hne, hmem⟩

/-- Where the node of a key is in its chain. -/
theorem exists_split {old : Option D} (hmem : ⟨k, old⟩ ∈ chain) (hnodup : (chain.map HashNode.key).Nodup)
    (data : Option D) : ∃ before behind, chain = before ++ ⟨k, old⟩ :: behind ∧
      overwrite k data chain = before ++ ⟨k, data⟩ :: behind ∧ chain.eraseP (·.key = k) = before ++ behind := by
  induction chain with
  | nil => cases hmem
  | cons first chain ih =>
    rw [List.map_cons, List.nodup_cons] at hnodup
    rcases List.mem_cons.mp hmem with rfl | hmem
    · exact ⟨[], chain, rfl, by simp [overwrite], by simp⟩
    · have hne : first.key ≠ k := by
        intro heq
        exact hnodup.1 (heq ▸ List.mem_map_of_mem hmem)
      obtain ⟨before, behind, rfl, hover, herase⟩ := ih hmem hnodup.2
      exact ⟨first :: before, behind, rfl, by simp [overwrite, hne, hover], by simp [hne, herase]⟩

end Chains

/-- The chains hold a finite map: every node is in the bucket of its key, which has no other node there. -/
structure Chained (t : HashTable K D) (m : K → Option (Option D)) : Prop where
  size_pos : 0 < t.size
  bucket_eq : ∀ i, ∀ node ∈ t.nodes i, t.bucket node.key = i
  nodup : ∀ i, ((t.nodes i).map HashNode.key).Nodup
  eq_some_iff : ∀ k data, m k = some data ↔ ⟨k, data⟩ ∈ t.nodes (t.bucket k)

/-- The table holds a finite map and counts its keys. -/
structure Represents (t : HashTable K D) (m : K → Option (Option D)) : Prop extends Chained t m where
  numElements_eq : t.numElements = ∑ i ∈ Finset.range t.size, (t.nodes i).length

namespace Chained

theorem bucket_lt (h : t.Chained m) (k : K) : t.bucket k < t.size := Nat.mod_lt _ h.size_pos

theorem create {size : ℕ} (hsize : 0 < size) (numElements : ℕ) (hashfunc : K → ℕ) :
    (create numElements size hashfunc : HashTable K D).Chained fun _ ↦ none where
  size_pos := hsize
  bucket_eq i node h := by cases h
  nodup i := List.nodup_nil
  eq_some_iff k data := by simp [HashTable.create]

theorem mem_keys (h : t.Chained m) : k ∈ (t.nodes (t.bucket k)).map HashNode.key ↔ (m k).isSome := by
  rw [List.mem_map]
  constructor
  · rintro ⟨node, hmem, rfl⟩
    rw [(h.eq_some_iff node.key node.data).mpr hmem]
    rfl
  · intro hsome
    obtain ⟨data, hdata⟩ := Option.isSome_iff_exists.mp hsome
    exact ⟨_, (h.eq_some_iff k data).mp hdata, rfl⟩

theorem not_mem_chain (h : t.Chained m) (hm : m k = none) (hmem : node ∈ t.nodes (t.bucket k)) : node.key ≠ k := by
  rintro rfl
  have hsome := (h.eq_some_iff node.key node.data).mpr hmem
  rw [hm] at hsome
  cases hsome

variable [DecidableEq K]

theorem find_eq (h : t.Chained m) (k : K) : t.find k = (m k).map fun data ↦ ⟨k, data⟩ := by
  cases hm : m k with
  | none =>
    refine List.find?_eq_none.mpr fun node hnode heq ↦ ?_
    obtain rfl : node.key = k := by simpa using heq
    have hsome := (h.eq_some_iff node.key node.data).mpr hnode
    rw [hm] at hsome
    cases hsome
  | some data =>
    have hmem := (h.eq_some_iff k data).mp hm
    obtain ⟨node, hnode⟩ := Option.isSome_iff_exists.mp
      (List.find?_isSome.mpr ⟨⟨k, data⟩, hmem, decide_eq_true rfl⟩ : (t.find k).isSome)
    have hkey : node.key = k := by simpa using List.find?_some hnode
    subst hkey
    have hsome := (h.eq_some_iff node.key node.data).mpr (List.mem_of_find?_eq_some hnode)
    obtain rfl := Option.some.inj (hm.symm.trans hsome)
    exact hnode

theorem get_eq (h : t.Chained m) (k : K) : t.get k = m k := by
  rw [get, h.find_eq]
  cases m k <;> rfl

/-- One chain is replaced by one in which only the data of one key has changed. -/
theorem write (h : t.Chained m) {value : Option (Option D)} (hkeys : (chain.map HashNode.key).Nodup)
    (hmem : ∀ node, node ∈ chain ↔ node.key = k ∧ value = some node.data ∨ node.key ≠ k ∧ node ∈ t.nodes (t.bucket k))
    (numElements : ℕ) :
    { t with nodes := update t.nodes (t.bucket k) chain, numElements := numElements }.Chained (update m k value) where
  size_pos := h.size_pos
  bucket_eq i node hnode := by
    change node ∈ update t.nodes (t.bucket k) chain i at hnode
    change t.bucket node.key = i
    rcases eq_or_ne i (t.bucket k) with rfl | hne
    · rw [update_self] at hnode
      rcases (hmem node).mp hnode with ⟨rfl, -⟩ | ⟨-, hold⟩
      · rfl
      · exact h.bucket_eq _ _ hold
    · rw [update_of_ne hne] at hnode
      exact h.bucket_eq _ _ hnode
  nodup i := by
    change ((update t.nodes (t.bucket k) chain i).map HashNode.key).Nodup
    rcases eq_or_ne i (t.bucket k) with rfl | hne
    · rw [update_self]
      exact hkeys
    · rw [update_of_ne hne]
      exact h.nodup i
  eq_some_iff k' data := by
    change update m k value k' = some data ↔ ⟨k', data⟩ ∈ update t.nodes (t.bucket k) chain (t.bucket k')
    rcases eq_or_ne k' k with rfl | hne
    · rw [update_self, update_self, hmem]
      simp
    · rw [update_of_ne hne, h.eq_some_iff]
      rcases eq_or_ne (t.bucket k') (t.bucket k) with heq | hbucket
      · rw [heq, update_self, hmem]
        simp [hne]
      · rw [update_of_ne hbucket]

/-- The data of a key that exists is overwritten. -/
theorem insert_of_some (h : t.Chained m) {old : Option D} (hm : m k = some old) (data : Option D) :
    ∃ u, t.insert k data = (u, .insertOverwrittenData, old.toList) ∧ u.Chained (update m k (some data)) ∧
      u = { t with nodes := update t.nodes (t.bucket k) (overwrite k data (t.nodes (t.bucket k))) } := by
  have hfind : t.find k = some ⟨k, old⟩ := by rw [h.find_eq, hm, Option.map_some]
  have hkey : k ∈ (t.nodes (t.bucket k)).map HashNode.key := h.mem_keys.mpr (by rw [hm]; rfl)
  refine ⟨_, by rw [insert, hfind], ?_, rfl⟩
  refine h.write ?_ (fun node ↦ ?_) t.numElements
  · rw [overwrite_keys]
    exact h.nodup _
  · rw [mem_overwrite (h.nodup _) hkey, Option.some.injEq]
    refine or_congr_left ⟨?_, ?_⟩
    · rintro rfl
      exact ⟨rfl, rfl⟩
    · rintro ⟨rfl, rfl⟩
      rfl

/-- A key that does not exist is inserted. -/
theorem insert_of_none (h : t.Chained m) (hm : m k = none) (data : Option D) :
    ∃ u, t.insert k data = (u, .ok, []) ∧ u.Chained (update m k (some data)) ∧
      u = { t with
        nodes := update t.nodes (t.bucket k) (⟨k, data⟩ :: t.nodes (t.bucket k))
        numElements := (t.numElements + 1) % 2 ^ 64 } := by
  have hfind : t.find k = none := by rw [h.find_eq, hm, Option.map_none]
  refine ⟨_, by rw [insert, hfind], ?_, rfl⟩
  refine h.write ?_ (fun node ↦ ?_) _
  · refine List.nodup_cons.mpr ⟨fun hkey ↦ ?_, h.nodup _⟩
    have hsome := h.mem_keys.mp hkey
    rw [hm] at hsome
    cases hsome
  · rw [List.mem_cons, Option.some.injEq]
    constructor
    · rintro (rfl | hmem)
      · exact .inl ⟨rfl, rfl⟩
      · exact .inr ⟨h.not_mem_chain hm hmem, hmem⟩
    · rintro (⟨rfl, rfl⟩ | ⟨-, hmem⟩)
      · exact .inl rfl
      · exact .inr hmem

/-- A key that exists is removed. -/
theorem remove_of_some (h : t.Chained m) {old : Option D} (hm : m k = some old) :
    ∃ u, t.remove k = (u, .ok, old.toList) ∧ u.Chained (update m k none) ∧
      u = { t with
        nodes := update t.nodes (t.bucket k) ((t.nodes (t.bucket k)).eraseP (·.key = k))
        numElements := (t.numElements + 2 ^ 64 - 1) % 2 ^ 64 } := by
  have hfind : t.find k = some ⟨k, old⟩ := by rw [h.find_eq, hm, Option.map_some]
  refine ⟨_, by rw [remove, hfind], ?_, rfl⟩
  refine h.write ?_ (fun node ↦ ?_) _
  · exact (List.eraseP_sublist.map _).nodup (h.nodup _)
  · rw [mem_eraseP (h.nodup _)]
    simp

theorem remove_of_none (h : t.Chained m) (hm : m k = none) : t.remove k = (t, .keyNotExists, []) := by
  rw [remove, h.find_eq, hm, Option.map_none]

/-- The result of an insertion, whether the key exists or not. -/
theorem insert (h : t.Chained m) (k : K) (data : Option D) : (t.insert k data).1.Chained (update m k (some data)) ∧
    (t.insert k data).2 = if (m k).isSome then (.insertOverwrittenData, (m k).toList.filterMap id) else (.ok, []) := by
  cases hm : m k with
  | none =>
    obtain ⟨u, hu, hchained, -⟩ := h.insert_of_none hm data
    exact ⟨by rwa [hu], by rw [hu]; rfl⟩
  | some old =>
    obtain ⟨u, hu, hchained, -⟩ := h.insert_of_some hm data
    refine ⟨by rwa [hu], ?_⟩
    rw [hu]
    cases old <;> rfl

/-- The table behind a removal, whether the key exists or not. -/
theorem remove (h : t.Chained m) (k : K) : (t.remove k).1.Chained (update m k none) := by
  cases hm : m k with
  | none =>
    rw [h.remove_of_none hm, ← hm, update_eq_self]
    exact h
  | some old =>
    obtain ⟨u, hu, hchained, -⟩ := h.remove_of_some hm
    rwa [hu]

/-- What is found behind an insertion. -/
theorem get_insert (h : t.Chained m) (k : K) (data : Option D) :
    (t.insert k data).1.get = update t.get k (some data) ∧ (t.insert k data).1.Chained (t.insert k data).1.get := by
  have hnew : (t.insert k data).1.get = update m k (some data) := funext (h.insert k data).1.get_eq
  obtain rfl : t.get = m := funext h.get_eq
  refine ⟨hnew, ?_⟩
  rw [hnew]
  exact (h.insert k data).1

/-- What is found behind a removal. -/
theorem get_remove (h : t.Chained m) (k : K) :
    (t.remove k).1.get = update t.get k none ∧ (t.remove k).1.Chained (t.remove k).1.get := by
  have hnew : (t.remove k).1.get = update m k none := funext (h.remove k).get_eq
  obtain rfl : t.get = m := funext h.get_eq
  refine ⟨hnew, ?_⟩
  rw [hnew]
  exact h.remove k

end Chained

namespace Represents

theorem create {size : ℕ} (hsize : 0 < size) (hashfunc : K → ℕ) :
    (create 0 size hashfunc : HashTable K D).Represents fun _ ↦ none where
  toChained := .create hsize 0 hashfunc
  numElements_eq := by simp [HashTable.create]

theorem length_le (h : t.Represents m) (k : K) : (t.nodes (t.bucket k)).length ≤ t.numElements := by
  have hsum := RingQueue.sum_update (h.bucket_lt k) t.nodes List.length []
  rw [h.numElements_eq]
  exact Nat.le.intro ((Nat.add_comm _ _).trans hsum)

/-- The number of elements behind a change of one chain. -/
theorem count_update (h : t.Represents m) {numElements : ℕ}
    (hcount : numElements + (t.nodes (t.bucket k)).length = t.numElements + chain.length) :
    numElements = ∑ i ∈ Finset.range t.size, (update t.nodes (t.bucket k) chain i).length := by
  have hsum := RingQueue.sum_update (h.bucket_lt k) t.nodes List.length chain
  have hold := h.numElements_eq
  omega

variable [DecidableEq K]

theorem insert_of_some (h : t.Represents m) {old : Option D} (hm : m k = some old) (data : Option D) :
    ∃ u, t.insert k data = (u, .insertOverwrittenData, old.toList) ∧ u.Represents (update m k (some data)) ∧
      u = { t with nodes := update t.nodes (t.bucket k) (overwrite k data (t.nodes (t.bucket k))) } := by
  obtain ⟨u, hu, hchained, rfl⟩ := h.toChained.insert_of_some hm data
  refine ⟨_, hu, ⟨hchained, h.count_update (congrArg (_ + ·) ?_)⟩, rfl⟩
  simpa using (congrArg List.length (overwrite_keys k data (t.nodes (t.bucket k)))).symm

theorem insert_of_none (h : t.Represents m) (hm : m k = none) (hfew : t.numElements + 1 < 2 ^ 64) (data : Option D) :
    ∃ u, t.insert k data = (u, .ok, []) ∧ u.Represents (update m k (some data)) ∧
      u = { t with
        nodes := update t.nodes (t.bucket k) (⟨k, data⟩ :: t.nodes (t.bucket k))
        numElements := t.numElements + 1 } := by
  obtain ⟨u, hu, hchained, rfl⟩ := h.toChained.insert_of_none hm data
  rw [Nat.mod_eq_of_lt hfew] at hu hchained
  refine ⟨_, hu, ⟨hchained, h.count_update ?_⟩, rfl⟩
  rw [List.length_cons]
  exact (Nat.add_right_comm _ _ _).trans (Nat.add_assoc _ _ _)

theorem remove_of_some (h : t.Represents m) {old : Option D} (hm : m k = some old) (hfew : t.numElements < 2 ^ 64) :
    ∃ u, t.remove k = (u, .ok, old.toList) ∧ u.Represents (update m k none) ∧
      u = { t with
        nodes := update t.nodes (t.bucket k) ((t.nodes (t.bucket k)).eraseP (·.key = k))
        numElements := t.numElements - 1 } := by
  have hmem := (h.eq_some_iff k old).mp hm
  have hpos : 0 < (t.nodes (t.bucket k)).length := List.length_pos_of_mem hmem
  have hle := h.length_le k
  have hsub : (t.numElements + 2 ^ 64 - 1) % 2 ^ 64 = t.numElements - 1 := by omega
  have hlength : ((t.nodes (t.bucket k)).eraseP (·.key = k)).length = (t.nodes (t.bucket k)).length - 1 :=
    List.length_eraseP_of_mem hmem (decide_eq_true rfl)
  have hcount : t.numElements - 1 + (t.nodes (t.bucket k)).length =
      t.numElements + ((t.nodes (t.bucket k)).eraseP (·.key = k)).length := by
    rw [hlength]
    omega
  obtain ⟨u, hu, hchained, rfl⟩ := h.toChained.remove_of_some hm
  rw [hsub] at hu hchained
  exact ⟨_, hu, ⟨hchained, h.count_update hcount⟩, rfl⟩

end Represents

end EdgeSlice.Common.HashTable
