import EdgeSlice.Compute.Deframing

namespace EdgeSlice.Compute

@[simp] theorem header_length (frame : Bytes) : (header frame).length = 4 := beBytes_length 4 _

@[simp] theorem wire_nil : wire [] = [] := rfl

@[simp] theorem wire_cons (frame : Bytes) (frames : List Bytes) :
    wire (frame :: frames) = header frame ++ frame ++ wire frames := rfl

theorem beValue_header {frame : Bytes} (h : frame.length < 2 ^ 32) :
    beValue (header frame) = frame.length :=
  beValue_beBytes h

theorem unpackInt_header {frame : Bytes} (h : frame.length < 2 ^ 31) :
    unpackInt (header frame) = frame.length := by
  have hvalue : beValue (header frame) = frame.length := beValue_header (by omega)
  rw [unpackInt, hvalue, if_pos h]

/-- Only its own header stands for the length of a frame. -/
theorem eq_header {frame buf : Bytes} (hlen : buf.length = 4) (h : unpackInt buf = frame.length) :
    buf = header frame := by
  have hlt : beValue buf < 2 ^ 32 := by
    have := beValue_lt buf
    rwa [hlen] at this
  have hvalue : beValue buf = frame.length := by
    unfold unpackInt at h
    split at h <;> omega
  refine beValue_inj (by rw [hlen, header_length]) ?_
  rw [hvalue, beValue_header (by omega)]

theorem SelfDescribing.length {frame : Bytes} (h : SelfDescribing frame) : 1023 ≤ frame.length := by
  obtain ⟨c, -, hprefix⟩ := h
  have := hprefix.length_le
  rw [List.length_replicate, List.length_append, header_length] at this
  omega

namespace Receiver

variable {cuts : List ℕ} {data stream frame : Bytes} {frames rest : List Bytes} {r : Receiver}

theorem eq_of_prefix {e : Bytes} (h : frames ++ [e] <+: frames ++ frame :: rest) : e = frame := by
  rw [List.prefix_append_right_inj, List.cons_prefix_cons] at h
  exact h.1

theorem frames_prefix {r' : Receiver} {stream' : Bytes} (h : r.run cuts stream = (r', stream')) :
    r.frames <+: r'.frames := by
  have := run_frames cuts r stream
  rwa [h] at this

theorem nil_length_lt : ([] : Bytes).length < 4 := Nat.succ_pos 3

/-- The next frame that is handed over has the length that stands in the next four bytes of
the stream, or these are negative and it is a part of what is in `data`. -/
theorem next_frame (hcuts : ∀ cut ∈ cuts, 0 < cut)
    (hrun : (⟨[], none, data, frames⟩ : Receiver).run cuts stream = (r, []))
    (hr : r.frames = frames ++ frame :: rest) :
    4 ≤ stream.length ∧ (unpackInt (stream.take 4) = frame.length ∨
      unpackInt (stream.take 4) < 0 ∧ frame.length ≤ data.length - 1) := by
  have hne : r.frames ≠ frames := by
    rw [hr]
    intro h
    have := congrArg List.length h
    rw [List.length_append, List.length_cons] at this
    omega
  rcases run_header hcuts nil_length_lt hrun with ⟨-, heq⟩ | ⟨hlen, cuts', hcuts', hrun'⟩
  · exact absurd heq hne
  rw [List.nil_append] at hlen hrun'
  refine ⟨hlen, ?_⟩
  generalize unpackInt (stream.take 4) = size at hrun' ⊢
  rw [settle] at hrun'
  simp only at hrun'
  split at hrun'
  · rename_i hdata
    obtain ⟨n, rfl⟩ := Int.eq_ofNat_of_zero_le (by omega : 0 ≤ size)
    rcases run_payload hcuts' (Int.ofNat_lt.mp hdata) hrun' with
      ⟨-, heq⟩ | ⟨m, hnm, -, hm, cuts'', -, hrun''⟩
    · exact absurd heq hne
    have hframe := eq_of_prefix (hr ▸ frames_prefix hrun'')
    apply Or.inl
    rw [← hframe, List.length_take_of_le (hnm.trans hm)]
  · rename_i hdata
    have hframe := eq_of_prefix (hr ▸ frames_prefix hrun')
    rw [sliceTo] at hframe
    split at hframe
    · rename_i hpos
      apply Or.inl
      rw [← hframe, List.length_take_of_le (by omega)]
      exact (Int.toNat_of_nonneg hpos).symm
    · refine .inr ⟨by omega, ?_⟩
      rw [← hframe, List.length_take]
      omega

/-- In front of a self-describing frame the four bytes behind the surplus are its header,
and the rest is its payload. -/
theorem realigned {tail : Bytes} (h : SelfDescribing frame) (hdata : data.length ≤ 1023)
    (heq : data ++ stream = header frame ++ frame ++ tail) :
    4 ≤ stream.length ∧ stream.take 4 = header frame ∧ data ++ stream.drop 4 = frame ++ tail := by
  obtain ⟨c, -, back, hback⟩ := h
  have hall : List.replicate 1027 c ++ (back ++ tail) = data ++ stream := by
    rw [heq, ← hback, List.append_assoc]
  obtain ⟨k, hk⟩ : ∃ k, 1023 = data.length + k := ⟨1023 - data.length, by omega⟩
  have hsplit : List.replicate 1027 c =
      List.replicate data.length c ++ (List.replicate 4 c ++ List.replicate k c) := by
    rw [List.replicate_append_replicate, List.replicate_append_replicate]
    congr 1
    omega
  rw [hsplit, List.append_assoc] at hall
  obtain ⟨hdata', hstream⟩ := List.append_inj hall (List.length_replicate ..)
  have hheader : header frame = List.replicate 4 c := by
    have htake := congrArg (List.take 4) hback
    rw [List.take_append_of_le_length (by rw [List.length_replicate]; omega), List.take_replicate,
      List.take_append_of_le_length (header_length frame).ge,
      List.take_of_length_le (header_length frame).le] at htake
    exact htake.symm
  rw [List.append_assoc] at hstream
  refine ⟨?_, ?_, ?_⟩
  · rw [← hstream, List.length_append, List.length_replicate]
    exact Nat.le_add_right _ _
  · rw [← hstream, hheader, List.take_left' (List.length_replicate ..)]
  · have hdrop : data ++ stream.drop 4 = List.replicate 1023 c ++ (back ++ tail) := by
      rw [← hstream, List.drop_left' (List.length_replicate ..), ← hdata', ← List.append_assoc,
        List.replicate_append_replicate, ← hk]
    have hpayload : List.replicate 1023 c ++ back = frame := by
      have hdrop' := congrArg (List.drop 4) hback
      rw [List.drop_left' (header_length frame), List.drop_append_of_le_length
        (by rw [List.length_replicate]; omega), List.drop_replicate] at hdrop'
      exact hdrop'
    rw [hdrop, ← hpayload, List.append_assoc]

/-- Once the size is known, the payload is handed over, at once when it is in `data`. -/
theorem run_frame {buf : Bytes} {n : ℕ} (hcuts : ∀ cut ∈ cuts, 0 < cut) (hdata : data.length ≤ 1023)
    (hrun : (settle ⟨buf, some n, data, frames⟩).run cuts stream = (r, []))
    (hn : n ≤ (data ++ stream).length) :
    ∃ m, n ≤ m ∧ m ≤ n + 1023 ∧ (data.length < n ∨ m = data.length) ∧
      ∃ cuts' : List ℕ, (∀ cut ∈ cuts', 0 < cut) ∧
        (⟨[], none, ((data ++ stream).take m).drop n, frames ++ [(data ++ stream).take n]⟩ :
          Receiver).run cuts' ((data ++ stream).drop m) = (r, []) := by
  rw [settle] at hrun
  simp only at hrun
  split at hrun
  · rename_i hlt
    rcases run_payload hcuts (Int.ofNat_lt.mp hlt) hrun with
      ⟨hshort, -⟩ | ⟨m, hnm, hm, -, cuts', hcuts', hrun'⟩
    · omega
    · exact ⟨m, hnm, by omega, .inl (Int.ofNat_lt.mp hlt), cuts', hcuts', hrun'⟩
  · rename_i hle
    have hle' : n ≤ data.length := by omega
    refine ⟨data.length, hle', by omega, .inr rfl, cuts, hcuts, ?_⟩
    rw [List.take_left, List.drop_left, List.take_append_of_le_length hle']
    simp only [sliceFrom, sliceTo, Int.natCast_nonneg, if_true, Int.toNat_natCast] at hrun
    exact hrun

/-- With a surplus in front of a self-describing frame, or none, all frames are handed over. -/
theorem run_wire (hcuts : ∀ cut ∈ cuts, 0 < cut) (hdata : data.length ≤ 1023)
    (heq : data ++ stream = wire rest)
    (hsurplus : data ≠ [] → ∃ g rest', rest = g :: rest' ∧ SelfDescribing g)
    (hlen : ∀ f ∈ rest, f.length < 2 ^ 31)
    (hpairs : rest.IsChain fun f g ↦ f = [] ∨ SelfDescribing g)
    (hrun : (⟨[], none, data, frames⟩ : Receiver).run cuts stream = (r, [])) :
    r.frames = frames ++ rest := by
  induction rest generalizing cuts data stream frames with
  | nil =>
    obtain ⟨rfl, rfl⟩ := List.append_eq_nil_iff.mp heq
    rcases run_header hcuts nil_length_lt hrun with ⟨-, hr⟩ | ⟨hfour, -⟩
    · rw [hr, List.append_nil]
    · exact absurd hfour (by decide)
  | cons g rest ih =>
    have hhead : 4 ≤ stream.length ∧ stream.take 4 = header g ∧
        data ++ stream.drop 4 = g ++ wire rest := by
      by_cases hnil : data = []
      · subst hnil
        rw [List.nil_append] at heq ⊢
        rw [heq, wire_cons, List.append_assoc, List.take_left' (header_length g),
          List.drop_left' (header_length g), List.length_append, header_length]
        exact ⟨Nat.le_add_right _ _, rfl, rfl⟩
      · obtain ⟨g', rest', hcons, hself⟩ := hsurplus hnil
        cases hcons
        exact realigned hself hdata heq
    obtain ⟨hfour, hheader, hpayload⟩ := hhead
    rcases run_header hcuts nil_length_lt hrun with ⟨hshort, -⟩ | ⟨-, cuts', hcuts', hrun'⟩
    · rw [List.nil_append] at hshort
      omega
    rw [List.nil_append, hheader, unpackInt_header (hlen g List.mem_cons_self)] at hrun'
    have hn : g.length ≤ (data ++ stream.drop 4).length := by
      rw [hpayload, List.length_append]
      exact Nat.le_add_right _ _
    obtain ⟨m, hgm, hm, hbefore, cuts'', hcuts'', hrun''⟩ := run_frame hcuts' hdata hrun' hn
    obtain ⟨k, rfl⟩ := Nat.exists_eq_add_of_le hgm
    rw [hpayload, List.take_length_add_append, List.drop_left, List.take_left,
      List.drop_length_add_append] at hrun''
    rw [List.append_cons]
    apply ih hcuts'' (by rw [List.length_take]; omega) (List.take_append_drop k _) _
      (fun f hf ↦ hlen f (List.mem_cons_of_mem _ hf)) hpairs.tail hrun''
    intro hnil
    have hk : 0 < k := Nat.pos_of_ne_zero fun hzero ↦ hnil (by rw [hzero, List.take_zero])
    cases rest with
    | nil => exact absurd (List.take_nil) hnil
    | cons g' rest =>
      refine ⟨g', rest, rfl, ?_⟩
      rcases (List.isChain_cons_cons.mp hpairs).1 with hg | hself
      · subst hg
        rw [List.length_nil] at hbefore
        have hdata' : data ≠ [] := by
          rintro rfl
          rw [List.length_nil] at hbefore
          omega
        obtain ⟨g'', rest'', hcons, hself⟩ := hsurplus hdata'
        cases hcons
        exact absurd hself.length (by decide)
      · exact hself

/-- Reading byte by byte stays within the payload. -/
theorem run_bytes {buf : Bytes} {n k : ℕ} (hn : data.length + k < n) (hk : k ≤ stream.length) :
    (⟨buf, some n, data, frames⟩ : Receiver).run (List.replicate k 1) stream =
      (⟨buf, some n, data ++ stream.take k, frames⟩, stream.drop k) := by
  induction k generalizing data stream with
  | zero => rw [List.take_zero, List.append_nil, List.drop_zero]; rfl
  | succ k ih =>
    cases stream with
    | nil => cases hk
    | cons b stream =>
      have hlt : ((data ++ [b]).length : ℤ) < n := by
        rw [List.length_append, List.length_singleton]
        omega
      have hrecv : (⟨buf, some n, data, frames⟩ : Receiver).recv 1 (b :: stream) =
          (⟨buf, some n, data ++ [b], frames⟩, stream) := by
        change (settle ⟨buf, some n, data ++ [b], frames⟩, stream) = _
        rw [settle]
        simp only [if_pos hlt]
      rw [List.replicate_succ, run, hrecv, ih (by rw [List.length_append, List.length_singleton]; omega)
        (Nat.le_of_succ_le_succ hk), List.take_succ_cons, List.drop_succ_cons, List.append_assoc]
      rfl

/-- A frame can be read so that `d` bytes behind it are in `data`. -/
theorem exists_run_frame (frames : List Bytes) (tail : Bytes) {d : ℕ} (hlen : frame.length < 2 ^ 31)
    (hd : d ≤ 1023) (hempty : frame = [] → d = 0) :
    ∃ cuts : List ℕ, (∀ cut ∈ cuts, 0 < cut) ∧
      (⟨[], none, [], frames⟩ : Receiver).run cuts (header frame ++ frame ++ tail) =
        (⟨[], none, tail.take d, frames ++ [frame]⟩, tail.drop d) := by
  have hheader : (⟨[], none, [], frames⟩ : Receiver).recv 4 (header frame ++ frame ++ tail) =
      (settle ⟨header frame, some frame.length, [], frames⟩, frame ++ tail) := by
    have htake : (header frame ++ frame ++ tail).take 4 = header frame := by
      rw [List.append_assoc, List.take_left' (header_length frame)]
    have hdrop : (header frame ++ frame ++ tail).drop 4 = frame ++ tail := by
      rw [List.append_assoc, List.drop_left' (header_length frame)]
    rw [recv]
    simp only [List.length_nil, Nat.sub_zero, Nat.min_self, List.nil_append, htake, hdrop,
      header_length, lt_irrefl, if_false, unpackInt_header hlen]
  rcases List.eq_nil_or_concat' frame with hnil | ⟨front, b, hconcat⟩
  · have hzero := hempty hnil
    subst hnil hzero
    refine ⟨[4], by decide, ?_⟩
    rw [run, hheader]
    rfl
  · have hfront : front.length + 1 = frame.length := by
      rw [hconcat, List.length_append, List.length_singleton]
    have hsettle : settle ⟨header frame, some frame.length, [], frames⟩ =
        ⟨header frame, some frame.length, [], frames⟩ := by
      rw [settle]
      refine if_pos ?_
      rw [List.length_nil]
      omega
    have hbytes : (⟨header frame, some frame.length, [], frames⟩ : Receiver).run
        (List.replicate front.length 1) (frame ++ tail) =
          (⟨header frame, some frame.length, front, frames⟩, b :: tail) := by
      rw [run_bytes (by rw [List.length_nil]; omega) (by rw [List.length_append]; omega), hconcat,
        List.append_assoc, List.take_left, List.drop_left]
      rfl
    have hlast : (⟨header frame, some frame.length, front, frames⟩ : Receiver).recv (1 + d)
        (b :: tail) = (⟨[], none, tail.take d, frames ++ [frame]⟩, tail.drop d) := by
      have hdata : front ++ (b :: tail).take (1 + d) = frame ++ tail.take d := by
        rw [Nat.add_comm, List.take_succ_cons, hconcat, List.append_assoc]
        rfl
      rw [recv]
      simp only [Nat.min_eq_right (by omega : 1 + d ≤ 1024), hdata]
      rw [Nat.add_comm, List.drop_succ_cons, settle]
      simp only [List.length_append, sliceFrom, sliceTo, Int.natCast_nonneg, if_true,
        Int.toNat_natCast, List.drop_left, List.take_left]
      rw [if_neg (by omega)]
    refine ⟨4 :: (List.replicate front.length 1 ++ [1 + d]), ?_, ?_⟩
    · intro cut hcut
      rcases List.mem_cons.mp hcut with rfl | hcut
      · exact Nat.succ_pos 3
      · rcases List.mem_append.mp hcut with hcut | hcut
        · rw [List.eq_of_mem_replicate hcut]
          exact Nat.one_pos
        · rw [List.mem_singleton.mp hcut]
          omega
    · rw [run, hheader, hsettle, run_append, hbytes, run, hlast]
      rfl

theorem settle_ready (r : Receiver) (h : r.size ≠ none) :
    r.settle.size = none → r.settle.buf.length < 4 := by
  unfold settle
  split
  · rename_i hsize
    exact absurd hsize h
  · rename_i size hsize
    split
    · intro hnone
      exact absurd hnone h
    · exact fun _ ↦ nil_length_lt

theorem exists_run (stream : Bytes) {r : Receiver} (hr : r.size = none → r.buf.length < 4) :
    ∃ cuts : List ℕ, (∀ cut ∈ cuts, 0 < cut) ∧ ∃ r', r.run cuts stream = (r', []) := by
  induction stream generalizing r with
  | nil => exact ⟨[], List.forall_mem_nil _, r, rfl⟩
  | cons b stream ih =>
    have hrecv : (r.recv 1 (b :: stream)).2 = stream ∧
        ((r.recv 1 (b :: stream)).1.size = none → (r.recv 1 (b :: stream)).1.buf.length < 4) := by
      rw [recv]
      cases hsize : r.size with
      | none =>
        have hone : min (4 - r.buf.length) 1 = 1 := by
          have := hr hsize
          omega
        simp only [hone]
        split
        · rename_i hshort
          exact ⟨rfl, fun _ ↦ hshort⟩
        · exact ⟨rfl, settle_ready _ (Option.some_ne_none _)⟩
      | some size => exact ⟨rfl, settle_ready _ (by simp only; exact Option.some_ne_none _)⟩
    obtain ⟨cuts, hcuts, r', hrun⟩ := ih hrecv.2
    refine ⟨1 :: cuts, ?_, r', ?_⟩
    · intro cut hcut
      rcases List.mem_cons.mp hcut with rfl | hcut
      · exact Nat.one_pos
      · exact hcuts cut hcut
    · rw [run, hrecv.1]
      exact hrun

end Receiver

end EdgeSlice.Compute
