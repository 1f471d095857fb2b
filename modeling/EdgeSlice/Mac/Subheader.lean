import EdgeSlice.CInteger
import EdgeSlice.Chain

namespace EdgeSlice.Mac

open Function ByteMemory Chain

def nbRbMax : ℕ := 14

def maxNumCe : ℕ := 5

def dcch : ℕ := 1

def dcch1 : ℕ := 2

def dtch : ℕ := 3

def shortPaddingLcid : ℕ := 31

def lcidField (b : ℕ) : ℕ := b % 32

def eField (b : ℕ) : ℕ := b / 32 % 2

def setE (b : ℕ) : ℕ := if eField b = 1 then b else b + 32

def fField (b : ℕ) : ℕ := b / 128 % 2

def lField (b : ℕ) : ℕ := b % 128

/-- A subheader of one octet, or one of an SDU with its length. -/
inductive Subheader
  | fixed (lcid : ℕ)
  | sdu (lcid length : ℕ)

namespace Subheader

def lcid : Subheader → ℕ
  | fixed lcid => lcid
  | sdu lcid _ => lcid

def lengthField : Subheader → List ℕ
  | fixed _ => []
  | sdu _ length =>
    if length < 128 then [length] else [128 + length / 256 % 128, length % 256]

/-- The subheader as it is first written, with `E` clear. -/
def bytes (x : Subheader) : List ℕ := x.lcid % 32 :: x.lengthField

/-- The subheader as it is sent: the last one has no length. -/
def encode : Bool → Subheader → List ℕ
  | true, x => (x.lcid % 32 + 32) :: x.lengthField
  | false, x => [x.lcid % 32]

theorem encode_ne_nil (more : Bool) (x : Subheader) : encode more x ≠ [] := by
  cases more <;> simp [encode]

theorem bytes_length (x : Subheader) : x.bytes.length = (encode true x).length := rfl

end Subheader

/-- The front of a header: padding and control elements. -/
def frontItems (pads : ℕ) (ces : List ℕ) : List Subheader :=
  List.replicate pads (.fixed shortPaddingLcid) ++ ces.map .fixed

def sduItems (sdus : List (ℕ × ℕ)) : List Subheader := sdus.map (fun sdu ↦ .sdu sdu.1 sdu.2)

def headerItems (pads : ℕ) (ces : List ℕ) (sdus : List (ℕ × ℕ)) (postPadding : ℕ) :
    List Subheader :=
  (frontItems pads ces ++ sduItems sdus) ++
    if 0 < postPadding then [.fixed shortPaddingLcid] else []

theorem headerItems_ne_nil {pads : ℕ} {ces : List ℕ} {sdus : List (ℕ × ℕ)} {postPadding : ℕ} :
    headerItems pads ces sdus postPadding ≠ [] ↔
      0 < pads ∨ ces ≠ [] ∨ sdus ≠ [] ∨ 0 < postPadding := by
  unfold headerItems frontItems sduItems
  rw [← not_iff_not]
  by_cases hp : 0 < postPadding <;> simp [hp]

/-- The local variables of the two header generators. `ce` is the part of
`mac_header_control_elements` below `ce_ptr`. -/
structure HeaderState where
  buf : ℕ → ℕ
  ptr : ℕ
  firstElement : Bool
  lastSize : ℕ
  ce : List ℕ

namespace HeaderState

/-- `E = 1` followed by an advance of the pointer. -/
def extend (step : ℕ) (s : HeaderState) : HeaderState :=
  { s with buf := update s.buf s.ptr (setE (s.buf s.ptr)), ptr := s.ptr + step }

/-- The test of `first_element` that precedes every subheader. -/
def link (step : ℕ) (s : HeaderState) : HeaderState :=
  if s.firstElement then s.extend step else { s with firstElement := true }

def putFixed (lcid : ℕ) (s : HeaderState) : HeaderState :=
  { s with buf := store s.buf s.ptr [lcid % 32], lastSize := 1 }

/-- The long form also clears the octet behind it. -/
def putSdu (lcid length : ℕ) (s : HeaderState) : HeaderState :=
  if length < 128 then
    { s with buf := store s.buf s.ptr [lcid % 32, length], lastSize := 2 }
  else
    { s with
      buf := store s.buf s.ptr [lcid % 32, 128 + length / 256 % 128, length % 256, 0]
      lastSize := 3 }

def controlElement (lcid : ℕ) (payload : List ℕ) (s : HeaderState) : HeaderState :=
  let s := (s.link 1).putFixed lcid
  { s with ce := s.ce ++ payload }

/-- The short padding at the front of a header. -/
def padFront (shortPadding : ℕ) (s : HeaderState) : HeaderState :=
  let s := if shortPadding = 1 ∨ shortPadding = 2
    then { s.putFixed shortPaddingLcid with firstElement := true } else s
  if shortPadding = 2 then (s.extend 1).putFixed shortPaddingLcid else s

/-- The end of both generators: the final padding, the control elements and the
length, which is returned in eight bits. -/
def finish (postPadding : ℕ) (s : HeaderState) : (ℕ → ℕ) × ℕ :=
  let s := if 0 < postPadding then (s.extend s.lastSize).putFixed shortPaddingLcid else s
  let s := { s with ptr := s.ptr + 1 }
  let s := if 0 < s.ce.length
    then { s with buf := store s.buf s.ptr s.ce, ptr := s.ptr + s.ce.length } else s
  (s.buf, uint8 s.ptr)

def put : Subheader → HeaderState → HeaderState
  | .fixed lcid, s => s.putFixed lcid
  | .sdu lcid length, s => s.putSdu lcid length

/-- What the buffer and the variables say after the subheaders `xs`. -/
inductive Represents : HeaderState → List Subheader → Prop
  | nil {s : HeaderState} (hfirst : s.firstElement = false) (hptr : s.ptr = 0)
      (hsize : s.lastSize = 0) : Represents s []
  | snoc {s : HeaderState} (init : List Subheader) (last : Subheader)
      (hfirst : s.firstElement = true)
      (hptr : s.ptr = (init.flatMap (Subheader.encode true)).length)
      (hsize : s.lastSize = last.bytes.length)
      (hbuf : Stores s.buf 0 (init.flatMap (Subheader.encode true) ++ last.bytes)) :
      Represents s (init ++ [last])

@[simp] theorem put_ptr (x : Subheader) (s : HeaderState) : (s.put x).ptr = s.ptr := by
  cases x with
  | fixed lcid => rfl
  | sdu lcid length =>
    simp only [put, putSdu]
    split <;> rfl

@[simp] theorem put_ce (x : Subheader) (s : HeaderState) : (s.put x).ce = s.ce := by
  cases x with
  | fixed lcid => rfl
  | sdu lcid length =>
    simp only [put, putSdu]
    split <;> rfl

@[simp] theorem put_firstElement (x : Subheader) (s : HeaderState) :
    (s.put x).firstElement = s.firstElement := by
  cases x with
  | fixed lcid => rfl
  | sdu lcid length =>
    simp only [put, putSdu]
    split <;> rfl

theorem put_lastSize (x : Subheader) (s : HeaderState) : (s.put x).lastSize = x.bytes.length := by
  cases x with
  | fixed lcid => rfl
  | sdu lcid length =>
    simp only [put, putSdu, Subheader.bytes, Subheader.lengthField]
    split <;> rfl

theorem put_buf (x : Subheader) (s : HeaderState) :
    ∃ tail, (s.put x).buf = store s.buf s.ptr (x.bytes ++ tail) := by
  cases x with
  | fixed lcid => exact ⟨[], rfl⟩
  | sdu lcid length =>
    simp only [put, putSdu, Subheader.bytes, Subheader.lengthField]
    split
    · exact ⟨[], rfl⟩
    · exact ⟨[0], rfl⟩

@[simp] theorem link_ce (step : ℕ) (s : HeaderState) : (s.link step).ce = s.ce := by
  unfold link
  split <;> rfl

theorem put_stores {x : Subheader} {s : HeaderState} {front : List ℕ}
    (hbuf : Stores s.buf 0 front) (hptr : s.ptr = front.length) :
    Stores (s.put x).buf 0 (front ++ x.bytes) := by
  obtain ⟨tail, htail⟩ := put_buf x s
  rw [htail, stores_append]
  refine ⟨hbuf.store_after (by omega), ?_⟩
  rw [hptr, Nat.zero_add]
  exact stores_store.take

theorem extend_stores {x : Subheader} {s : HeaderState} {front : List ℕ} (step : ℕ)
    (hbuf : Stores s.buf 0 (front ++ x.bytes)) (hptr : s.ptr = front.length) :
    Stores (s.extend step).buf 0 (front ++ Subheader.encode true x) := by
  obtain ⟨hfront, hlast⟩ := stores_append.mp hbuf
  rw [Nat.zero_add, ← hptr] at hlast
  refine stores_append.mpr ⟨?_, ?_⟩
  · exact hfront.congr (fun q _ hq ↦ update_of_ne (by omega) _ _)
  · rw [Nat.zero_add, ← hptr]
    refine ⟨?_, hlast.2.congr (fun q hq _ ↦ update_of_ne (by omega) _ _)⟩
    have hclear : eField (x.lcid % 32) = 0 := by unfold eField; omega
    simp [extend, hlast.1, setE, hclear]

/-- The flag of the last subheader is set, and the pointer stands behind it. -/
theorem extend_last {s : HeaderState} {init : List Subheader} {last : Subheader}
    (hptr : s.ptr = (init.flatMap (Subheader.encode true)).length)
    (hsize : s.lastSize = last.bytes.length)
    (hbuf : Stores s.buf 0 (init.flatMap (Subheader.encode true) ++ last.bytes)) :
    (s.extend s.lastSize).ptr = ((init ++ [last]).flatMap (Subheader.encode true)).length ∧
      Stores (s.extend s.lastSize).buf 0 ((init ++ [last]).flatMap (Subheader.encode true)) := by
  have hcat : (init ++ [last]).flatMap (Subheader.encode true) =
      init.flatMap (Subheader.encode true) ++ Subheader.encode true last := by simp
  rw [hcat]
  refine ⟨?_, extend_stores s.lastSize hbuf hptr⟩
  rw [List.length_append, ← Subheader.bytes_length, ← hsize, ← hptr]
  rfl

theorem Represents.put {s : HeaderState} {xs : List Subheader} (h : Represents s xs)
    (x : Subheader) : Represents ((s.link s.lastSize).put x) (xs ++ [x]) := by
  cases h with
  | nil hfirst hptr hsize =>
    have hlink : s.link s.lastSize = { s with firstElement := true } := by simp [link, hfirst]
    rw [hlink]
    refine .snoc [] x (by simp) (by simp [hptr]) (put_lastSize _ _) ?_
    exact put_stores stores_nil (by simp [hptr])
  | snoc init last hfirst hptr hsize hbuf =>
    have hlink : s.link s.lastSize = s.extend s.lastSize := by simp [link, hfirst]
    rw [hlink]
    obtain ⟨hptr', hfront⟩ := extend_last hptr hsize hbuf
    refine .snoc (init ++ [last]) x (by simp [extend, hfirst]) ?_ (put_lastSize _ _) ?_
    · rw [put_ptr]
      exact hptr'
    · exact put_stores hfront hptr'

/-- The pointer stands on the last subheader, whose first octet is written. -/
structure AtLast (s : HeaderState) (xs : List Subheader) : Prop where
  ptr : s.ptr + 1 = (chain Subheader.encode xs).length
  buf : Stores s.buf 0 (chain Subheader.encode xs)

theorem Represents.atLast {s : HeaderState} {xs : List Subheader} (h : Represents s xs)
    (hne : xs ≠ []) : AtLast s xs := by
  cases h with
  | nil => exact absurd rfl hne
  | snoc init last hfirst hptr hsize hbuf =>
    have hchain : chain Subheader.encode (init ++ [last]) =
        init.flatMap (Subheader.encode true) ++ [last.lcid % 32] := chain_snoc init last
    refine ⟨?_, ?_⟩
    · rw [hchain, hptr]
      simp
    · rw [hchain]
      have hsplit : init.flatMap (Subheader.encode true) ++ last.bytes =
          (init.flatMap (Subheader.encode true) ++ [last.lcid % 32]) ++ last.lengthField := by
        simp [Subheader.bytes]
      rw [hsplit] at hbuf
      exact hbuf.take

theorem AtLast.finish {s : HeaderState} {xs : List Subheader} (h : AtLast s xs) :
    Stores (s.finish 0).1 0 (chain Subheader.encode xs ++ s.ce) ∧
      (s.finish 0).2 = uint8 (chain Subheader.encode xs ++ s.ce).length := by
  obtain ⟨hptr, hbuf⟩ := h
  rw [List.length_append, ← hptr]
  by_cases hce : 0 < s.ce.length
  · refine ⟨?_, by simp [HeaderState.finish, hce]⟩
    have hcopy : (s.finish 0).1 = store s.buf (s.ptr + 1) s.ce := by
      simp [HeaderState.finish, hce]
    rw [hcopy, stores_append]
    refine ⟨hbuf.store_after (by omega), ?_⟩
    rw [Nat.zero_add, ← hptr]
    exact stores_store
  · have hnil : s.ce = [] := List.eq_nil_of_length_eq_zero (by omega)
    refine ⟨?_, by simp [HeaderState.finish, hnil]⟩
    simpa [HeaderState.finish, hnil] using hbuf

/-- The final padding is one more subheader. -/
theorem Represents.finish {s : HeaderState} {xs : List Subheader} (h : Represents s xs)
    (postPadding : ℕ) {items : List Subheader} (hne : items ≠ [])
    (hitems : items = if 0 < postPadding then xs ++ [.fixed shortPaddingLcid] else xs) :
    Stores (s.finish postPadding).1 0 (chain Subheader.encode items ++ s.ce) ∧
      (s.finish postPadding).2 = uint8 (chain Subheader.encode items ++ s.ce).length := by
  subst hitems
  split
  · next hpad =>
    have hput : ((s.link s.lastSize).putFixed shortPaddingLcid).AtLast
        (xs ++ [.fixed shortPaddingLcid]) := (h.put (.fixed shortPaddingLcid)).atLast (by simp)
    have hsame : AtLast ((s.extend s.lastSize).putFixed shortPaddingLcid)
        (xs ++ [.fixed shortPaddingLcid]) := by
      cases h with
      | nil hfirst hptr hsize =>
        refine ⟨by simp [putFixed, extend, hptr, hsize, chain, Subheader.encode], ?_⟩
        simp [putFixed, extend, hptr, hsize, chain, Subheader.encode, store, Subheader.lcid]
      | snoc init last hfirst hptr hsize hbuf =>
        rwa [link, if_pos hfirst] at hput
    have hfinish := hsame.finish
    have hce : ((s.extend s.lastSize).putFixed shortPaddingLcid).ce = s.ce := rfl
    rw [hce] at hfinish
    simpa [HeaderState.finish, hpad] using hfinish
  · next hpad =>
    have hzero : postPadding = 0 := by omega
    subst hzero
    exact (h.atLast (by simpa using hne)).finish

/-- Blocks that move the pointer by one follow a subheader of one octet. -/
theorem Represents.controlElement {s : HeaderState} {xs : List Subheader} (h : Represents s xs)
    (hfixed : ∀ x ∈ xs, ∃ lcid, x = .fixed lcid) (lcid : ℕ) (payload : List ℕ) :
    Represents (s.controlElement lcid payload) (xs ++ [.fixed lcid]) := by
  have hput := h.put (.fixed lcid)
  have hlink : s.link 1 = s.link s.lastSize := by
    cases h with
    | nil hfirst hptr hsize => simp [link, hfirst]
    | snoc init last hfirst hptr hsize hbuf =>
      obtain ⟨l, rfl⟩ := hfixed last (by simp)
      rw [hsize]
      rfl
  rw [← hlink] at hput
  generalize hout : xs ++ [.fixed lcid] = out at hput ⊢
  cases hput with
  | nil hfirst => simp at hout
  | snoc init last hfirst hptr hsize hbuf => exact .snoc init last hfirst hptr hsize hbuf

def padCount (shortPadding : ℕ) : ℕ :=
  if shortPadding = 1 then 1 else if shortPadding = 2 then 2 else 0

theorem padFront_represents (buf : ℕ → ℕ) (shortPadding : ℕ) :
    Represents (padFront shortPadding ⟨buf, 0, false, 0, []⟩)
      (List.replicate (padCount shortPadding) (.fixed shortPaddingLcid)) := by
  have hnil : Represents ⟨buf, 0, false, 0, []⟩ [] := .nil rfl rfl rfl
  have hone := hnil.put (.fixed shortPaddingLcid)
  by_cases h₁ : shortPadding = 1
  · subst h₁
    exact hone
  · by_cases h₂ : shortPadding = 2
    · subst h₂
      exact hone.put (.fixed shortPaddingLcid)
    · simp only [padFront, padCount, h₁, h₂, or_self, if_false]
      exact hnil

@[simp] theorem padFront_ce (shortPadding : ℕ) (s : HeaderState) :
    (s.padFront shortPadding).ce = s.ce := by
  unfold padFront
  split <;> split <;> rfl

def putSdus (sdus : List (ℕ × ℕ)) (s : HeaderState) : HeaderState :=
  sdus.foldl (fun s sdu ↦ (s.link s.lastSize).putSdu sdu.1 sdu.2) s

theorem Represents.putSdus {s : HeaderState} {xs : List Subheader} (h : Represents s xs)
    (sdus : List (ℕ × ℕ)) : Represents (s.putSdus sdus) (xs ++ sduItems sdus) := by
  induction sdus generalizing s xs with
  | nil =>
    rw [sduItems, List.map_nil, List.append_nil]
    exact h
  | cons sdu sdus ih =>
    have hnext := ih (h.put (.sdu sdu.1 sdu.2))
    rwa [List.append_assoc] at hnext

@[simp] theorem putSdus_ce (sdus : List (ℕ × ℕ)) (s : HeaderState) :
    (s.putSdus sdus).ce = s.ce := by
  induction sdus generalizing s with
  | nil => rfl
  | cons sdu sdus ih =>
    apply (ih _).trans
    exact (put_ce (.sdu sdu.1 sdu.2) _).trans (link_ce _ _)

/-- The state after the padding and the control elements; a control element is
its LCID and its payload. -/
structure Elements (s : HeaderState) (pads : ℕ) (ces : List (ℕ × List ℕ)) : Prop where
  represents : Represents s (frontItems pads (ces.map Prod.fst))
  payload : s.ce = ces.flatMap Prod.snd

theorem Elements.start (buf : ℕ → ℕ) (shortPadding : ℕ) :
    Elements (padFront shortPadding ⟨buf, 0, false, 0, []⟩) (padCount shortPadding) [] := by
  refine ⟨?_, by simp⟩
  simpa [frontItems] using padFront_represents buf shortPadding

theorem Elements.controlElement {s : HeaderState} {pads : ℕ} {ces : List (ℕ × List ℕ)}
    (h : Elements s pads ces) (lcid : ℕ) (payload : List ℕ) :
    Elements (s.controlElement lcid payload) pads (ces ++ [(lcid, payload)]) := by
  refine ⟨?_, ?_⟩
  · have hnext := h.represents.controlElement (by
      intro x hx
      rcases List.mem_append.mp hx with hx | hx
      · exact ⟨_, List.eq_of_mem_replicate hx⟩
      · obtain ⟨l, -, rfl⟩ := List.mem_map.mp hx
        exact ⟨l, rfl⟩) lcid payload
    simpa [frontItems] using hnext
  · simp [HeaderState.controlElement, putFixed, h.payload]

theorem Elements.optional {s : HeaderState} {pads : ℕ} {ces : List (ℕ × List ℕ)}
    (h : Elements s pads ces) (c : Prop) [Decidable c] (lcid : ℕ) (payload : List ℕ) :
    Elements (if c then s.controlElement lcid payload else s) pads
      (ces ++ if c then [(lcid, payload)] else []) := by
  split
  · exact h.controlElement lcid payload
  · simpa using h

theorem Elements.finish {s : HeaderState} {pads : ℕ} {ces : List (ℕ × List ℕ)}
    (h : Elements s pads ces) (sdus : List (ℕ × ℕ)) (postPadding : ℕ)
    (hne : headerItems pads (ces.map Prod.fst) sdus postPadding ≠ []) :
    Stores ((s.putSdus sdus).finish postPadding).1 0
        (chain Subheader.encode (headerItems pads (ces.map Prod.fst) sdus postPadding) ++
          ces.flatMap Prod.snd) ∧
      ((s.putSdus sdus).finish postPadding).2 =
        uint8 (chain Subheader.encode (headerItems pads (ces.map Prod.fst) sdus postPadding) ++
          ces.flatMap Prod.snd).length := by
  have hall := h.represents.putSdus sdus
  rw [← h.payload, ← putSdus_ce sdus s]
  apply hall.finish postPadding hne
  unfold headerItems
  split <;> simp

end HeaderState

theorem Subheader.encode_length_le (more : Bool) (x : Subheader) : (x.encode more).length ≤ 3 := by
  cases more with
  | false => simp [encode]
  | true =>
    cases x with
    | fixed lcid => simp [encode, lengthField]
    | sdu lcid length =>
      simp only [encode, lengthField]
      split <;> simp

theorem Subheader.chain_length_le (xs : List Subheader) :
    (chain encode xs).length ≤ 3 * xs.length := by
  induction xs with
  | nil => decide
  | cons x xs ih =>
    cases xs with
    | nil =>
      have := x.encode_length_le false
      simpa [chain] using this
    | cons y ys =>
      have := x.encode_length_le true
      simp only [chain, List.length_append, List.length_cons] at ih ⊢
      omega

theorem headerItems_length_le (shortPadding : ℕ) (ces : List ℕ) (sdus : List (ℕ × ℕ))
    (postPadding : ℕ) :
    (headerItems (HeaderState.padCount shortPadding) ces sdus postPadding).length ≤
      ces.length + sdus.length + 3 := by
  have hpads : HeaderState.padCount shortPadding ≤ 2 := by
    unfold HeaderState.padCount
    split <;> [decide; (split <;> decide)]
  simp only [headerItems, frontItems, sduItems, List.length_append, List.length_map,
    List.length_replicate]
  split <;> simp only [List.length_singleton, List.length_nil] <;> omega

end EdgeSlice.Mac
