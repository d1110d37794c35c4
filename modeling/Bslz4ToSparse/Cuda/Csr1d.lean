import Bslz4ToSparse.Dot.Arith
import Bslz4ToSparse.Foundation.Accumulate
import Bslz4ToSparse.Foundation.Tiles

/-!
# The matrix product on the GPU (src/cuda/bslz4_split.cu)

One thread block per bin and group of frames. Its threads stride over the entries of the bin,
each warp adds up its lanes, and the first warp adds up the warps.
-/

namespace Bslz4ToSparse.Cuda

open Foundation Dot

variable {P W D : Type}

/-! ## warp_sum -/

/-- `__shfl_down_sync`: a lane without a partner reads itself. -/
def shflDown (v : Nat → D) (o lane : Nat) : D := if lane + o < 32 then v (lane + o) else v lane

/-- The offsets of the tree. -/
def treeOffsets : List Nat := [16, 8, 4, 2, 1]

/-- `warp_sum`, by shuffles or through shared memory. -/
def warpSum (shfl : Bool) (A : Arith P W D) (v : Nat → D) : Nat → D :=
  if shfl then treeOffsets.foldl (fun v o lane => A.add (v lane) (shflDown v o lane)) v
  else treeOffsets.foldl (fun v o lane => if lane < o then A.add (v lane) (v (lane + o)) else v lane) v

/-! ## csr1d -/

/-- The matrix with rows = bins. -/
structure Csr (W : Type) where
  coef : Nat → W
  idx : Nat → Nat
  indptr : Nat → Nat

/-- The sums of thread `tid`, one per frame of the group. -/
def threadSums (A : Arith P W D) (m : Csr W) (d : Nat → P) (stride nf F wg bin tid : Nat) : Nat → D :=
  (strided (m.indptr bin + tid) (m.indptr (bin + 1)) wg).foldl (fun acc k =>
    let c := A.weight (m.coef k)
    let p := m.idx k
    (List.range (if nf = F then F else nf)).foldl (fun acc f =>
      modifyAt acc f fun a => A.add a (A.mul c (A.pixel (d (f * stride + p))))) acc) fun _ => A.zero

/-- The kernel counts the entries with `int k`, which does not wrap where the entries and a block's threads are at
most 2^31. -/
theorem threadSums_int (A : Arith P W D) (m : Csr W) (d : Nat → P) {stride nf F wg bin tid fuel : Nat}
    (htid : tid < wg) (hle : m.indptr bin ≤ m.indptr (bin + 1)) (hfits : m.indptr (bin + 1) + wg ≤ 2 ^ 31)
    (hfuel : m.indptr (bin + 1) < fuel) :
    threadSums A m d stride nf F wg bin tid =
      (intLoop (.ofNat 32 (m.indptr (bin + 1))) (.ofNat 32 wg) fuel (.ofNat 32 (m.indptr bin + tid))).foldl
        (fun acc k =>
          let c := A.weight (m.coef k)
          let p := m.idx k
          (List.range (if nf = F then F else nf)).foldl (fun acc f =>
            modifyAt acc f fun a => A.add a (A.mul c (A.pixel (d (f * stride + p))))) acc) fun _ => A.zero := by
  rw [intLoop_eq (by omega) hfits (by omega) (by omega)]
  rfl

/-- The reduction of frame `f` of the group: the warps into `sh[wid * F + f]`, and these into lane 0
of the first warp. -/
def blockSum (shfl : Bool) (A : Arith P W D) (m : Csr W) (d : Nat → P) (stride nf F wg bin f : Nat) :
    D :=
  let nw := (wg + 31) / 32
  let sh := fun wid =>
    warpSum shfl A (fun lane => threadSums A m d stride nf F wg bin (wid * 32 + lane) f) 0
  warpSum shfl A (fun lane => if lane < nw then sh lane else A.zero) 0

/-- `csr1d_bin` of the thread block `(bin, y)`, with `wg` threads. -/
def csr1dBin (shfl : Bool) (A : Arith P W D) (m : Csr W) (dense : Nat → P)
    (stride nframes nbins F wg bin y : Nat) (out : Nat → D) : Nat → D :=
  let f0 := y * F
  let d := fun i => dense (f0 * stride + i)
  let nf := min F (nframes - f0)
  (List.range F).foldl (fun out f =>
    let v := blockSum shfl A m d stride nf F wg bin f
    if f < nf then modifyAt out ((f0 + f) * nbins + bin) fun _ => v else out) out

/-- The thread blocks of a launch. -/
def grid (nbins nframes F : Nat) : List (Nat × Nat) :=
  (List.range nbins).flatMap fun bin =>
    (List.range ((nframes + F - 1) / F)).map fun y => (bin, y)

/-- `csr1d`, its thread blocks in the order `order`. -/
def csr1d (shfl : Bool) (A : Arith P W D) (m : Csr W) (dense : Nat → P)
    (stride nframes nbins F wg : Nat) (order : List (Nat × Nat)) (out : Nat → D) : Nat → D :=
  order.foldl (fun out blk => csr1dBin shfl A m dense stride nframes nbins F wg blk.1 blk.2 out) out

/-! ## In exact arithmetic -/

section

variable [Semiring D] {pixel pixelFloat : P → D} {weight : W → D}

/-- One step of the tree folds the upper half of `2 * o` lanes on the lower. -/
theorem sum_treeStep (v v' : Nat → D) (o : Nat) (h : ∀ lane, lane < o → v' lane = v lane + v (lane + o)) :
    ((List.range o).map v').sum = ((List.range (2 * o)).map v).sum := by
  rw [Nat.two_mul, List.range_add, List.map_append, List.sum_append, List.map_map, ← List.sum_map_add]
  refine congrArg List.sum (List.map_congr_left fun lane hlane => ?_)
  rw [h lane (List.mem_range.mp hlane), Function.comp_apply, Nat.add_comm o]

/-- Lane 0 holds the sum of the warp. -/
theorem warpSum_exact (shfl : Bool) (v : Nat → D) :
    warpSum shfl (.exact pixel pixelFloat weight) v 0 = ((List.range 32).map v).sum := by
  have htree : ∀ step : (Nat → D) → Nat → Nat → D,
      (∀ (v : Nat → D) (o : Nat), 2 * o ≤ 32 → ∀ lane, lane < o → step v o lane = v lane + v (lane + o)) →
      treeOffsets.foldl step v 0 = ((List.range 32).map v).sum := by
    intro step hstep
    have h16 := sum_treeStep v (step v 16) 16 (hstep v 16 (by decide))
    have h8 := sum_treeStep _ _ 8 (hstep (step v 16) 8 (by decide))
    have h4 := sum_treeStep _ _ 4 (hstep (step (step v 16) 8) 4 (by decide))
    have h2 := sum_treeStep _ _ 2 (hstep (step (step (step v 16) 8) 4) 2 (by decide))
    have h1 := sum_treeStep _ _ 1 (hstep (step (step (step (step v 16) 8) 4) 2) 1 (by decide))
    calc treeOffsets.foldl step v 0 = ((List.range 1).map (treeOffsets.foldl step v)).sum := by simp
      _ = ((List.range 32).map v).sum := h1.trans (h2.trans (h4.trans (h8.trans h16)))
  cases shfl with
  | true =>
    rw [warpSum, if_pos rfl]
    refine htree _ fun v o ho lane hlane => ?_
    simp only [Arith.exact, shflDown, if_pos (show lane + o < 32 by omega)]
  | false =>
    rw [warpSum, if_neg Bool.false_ne_true]
    refine htree _ fun v o _ lane hlane => ?_
    simp only [Arith.exact, if_pos hlane]

theorem sum_single_range (n : Nat) (g : Nat → D) (i : Nat) :
    ((List.range n).map fun f => single f (g f) i).sum = if i < n then g i else 0 := by
  induction n with
  | zero => rfl
  | succ n ih =>
    rw [List.range_succ, List.map_append, List.sum_append, ih]
    simp only [List.map_cons, List.map_nil, List.sum_cons, List.sum_nil, add_zero, single]
    by_cases hlast : i = n
    · subst hlast
      rw [if_neg (lt_irrefl i), if_pos rfl, if_pos (Nat.lt_succ_self i), zero_add]
    · rw [if_neg hlast, add_zero]
      congr 1
      simp only [eq_iff_iff]
      omega

theorem threadSums_exact (m : Csr W) (d : Nat → P) {stride nf F wg bin tid f : Nat}
    (hf : f < nf) :
    threadSums (.exact pixel pixelFloat weight) m d stride nf F wg bin tid f =
      ((strided (m.indptr bin + tid) (m.indptr (bin + 1)) wg).map fun k =>
        weight (m.coef k) * pixel (d (f * stride + m.idx k))).sum := by
  have hadds : Adds (fun acc => (strided (m.indptr bin + tid) (m.indptr (bin + 1)) wg).foldl
      (fun acc k => (List.range (if nf = F then F else nf)).foldl (fun acc f =>
        modifyAt acc f fun a => a + weight (m.coef k) * pixel (d (f * stride + m.idx k))) acc) acc) _ :=
    adds_foldl _ fun k _ => adds_foldl _ fun f _ => adds_modifyAt _ _
  refine (hadds (fun _ => 0) f).trans ((zero_add _).trans ?_)
  refine congrArg List.sum (List.map_congr_left fun k _ => ?_)
  rw [sum_single_range, if_pos]
  split
  · omega
  · exact hf

/-- The strides of the threads cover the entries of the bin. -/
theorem sum_threads {wg : Nat} (h : 0 < wg) (a b : Nat) (g : Nat → D) :
    ((List.range wg).map fun tid => ((strided (a + tid) b wg).map g).sum).sum =
      ((List.range' a (b - a)).map g).sum := by
  rw [← sum_map_flatMap, sum_map_perm (passes_perm h a b)]

/-- The lanes of the warps are the threads. -/
theorem sum_warps (lanes nw : Nat) (g : Nat → D) :
    ((List.range nw).map fun wid =>
      ((List.range lanes).map fun lane => g (wid * lanes + lane)).sum).sum =
      ((List.range (nw * lanes)).map g).sum := by
  induction nw with
  | zero => simp
  | succ nw ih =>
    rw [List.range_succ, List.map_append, List.sum_append, ih, Nat.succ_mul, List.range_add,
      List.map_append, List.sum_append, List.map_map, List.map_singleton, List.sum_singleton]
    rfl

theorem sum_range_if {n N : Nat} (h : n ≤ N) (g : Nat → D) :
    ((List.range N).map fun i => if i < n then g i else 0).sum = ((List.range n).map g).sum := by
  obtain ⟨rest, rfl⟩ := Nat.exists_eq_add_of_le h
  have hbelow : ((List.range n).map fun i => if i < n then g i else 0) = (List.range n).map g :=
    List.map_congr_left fun i hi => if_pos (List.mem_range.mp hi)
  have habove : (((List.range rest).map (n + ·)).map fun i => if i < n then g i else 0).sum = 0 := by
    refine List.sum_eq_zero fun x hx => ?_
    obtain ⟨i, hi, rfl⟩ := List.mem_map.mp hx
    obtain ⟨j, -, rfl⟩ := List.mem_map.mp hi
    exact if_neg (by omega)
  rw [List.range_add, List.map_append, List.sum_append, habove, add_zero, hbelow]

/-- A thread block adds up the entries of its bin. -/
theorem blockSum_exact (shfl : Bool) (m : Csr W) (d : Nat → P) {stride nf F wg bin f : Nat}
    (hwg : wg % 32 = 0) (hpos : 0 < wg) (hmax : wg ≤ 1024) (hf : f < nf) :
    blockSum shfl (.exact pixel pixelFloat weight) m d stride nf F wg bin f =
      ((List.range' (m.indptr bin) (m.indptr (bin + 1) - m.indptr bin)).map fun k =>
        weight (m.coef k) * pixel (d (f * stride + m.idx k))).sum := by
  obtain ⟨nw, hnw⟩ : ∃ nw, wg = nw * 32 := ⟨wg / 32, by omega⟩
  have hcount : (wg + 31) / 32 = nw := by omega
  rw [← sum_threads hpos, blockSum, warpSum_exact, hcount]
  have hzero : (Arith.exact pixel pixelFloat weight).zero = 0 := rfl
  simp only [warpSum_exact, threadSums_exact m d hf, hzero]
  rw [sum_range_if (show nw ≤ 32 by omega), sum_warps 32 nw fun tid =>
    ((strided (m.indptr bin + tid) (m.indptr (bin + 1)) wg).map fun k =>
      weight (m.coef k) * pixel (d (f * stride + m.idx k))).sum, ← hnw]

end

/-! ## The cells written -/

/-- A loop of which some turn sets cell `i` to `x`, and no turn sets it to anything else. -/
theorem foldl_sets {α : Type} {step : (Nat → D) → α → Nat → D} {l : List α} {i : Nat} {x : D}
    (h : ∀ a ∈ l, (∀ out, step out a i = x) ∨ ∀ out, step out a i = out i)
    (hset : ∃ a ∈ l, ∀ out, step out a i = x) (out : Nat → D) : l.foldl step out i = x := by
  have hkeep : ∀ (l : List α), (∀ a ∈ l, (∀ out, step out a i = x) ∨ ∀ out, step out a i = out i) →
      ∀ out, out i = x → l.foldl step out i = x := by
    intro l
    induction l with
    | nil => exact fun _ _ h => h
    | cons a l ih =>
      intro h out hout
      refine ih (fun b hb => h b (List.mem_cons_of_mem a hb)) _ ?_
      obtain ha | ha := h a List.mem_cons_self
      · exact ha out
      · exact (ha out).trans hout
  induction l generalizing out with
  | nil =>
    obtain ⟨a, ha, -⟩ := hset
    exact absurd ha List.not_mem_nil
  | cons a l ih =>
    have hl := fun b hb => h b (List.mem_cons_of_mem a hb)
    obtain ⟨c, hc, hsets⟩ := hset
    rw [List.foldl_cons]
    by_cases hmem : c ∈ l
    · exact ih hl ⟨c, hmem, hsets⟩ _
    · obtain rfl | hmem' := List.mem_cons.mp hc
      · exact hkeep l hl _ (hsets out)
      · exact absurd hmem' hmem

/-- A loop of which no turn changes cell `i`. -/
theorem foldl_keeps {α : Type} {step : (Nat → D) → α → Nat → D} {l : List α} {i : Nat}
    (h : ∀ a ∈ l, ∀ out, step out a i = out i) (out : Nat → D) : l.foldl step out i = out i := by
  induction l generalizing out with
  | nil => rfl
  | cons a l ih =>
    rw [List.foldl_cons, ih fun b hb => h b (List.mem_cons_of_mem a hb)]
    exact h a List.mem_cons_self out

/-- Two cells are the same only for the same frame and bin. -/
theorem cell_inj {nbins f b f' b' : Nat} (hb' : b' < nbins) (hb : b < nbins)
    (h : f * nbins + b = f' * nbins + b') : f' = f ∧ b' = b := by
  have hdiv := congrArg (· / nbins) h
  have hmod := congrArg (· % nbins) h
  simp only [Nat.mul_add_mod_self_right, Nat.mod_eq_of_lt hb', Nat.mod_eq_of_lt hb] at hmod
  simp only [Nat.add_comm _ b', Nat.add_comm _ b, Nat.add_mul_div_right _ _ (show 0 < nbins by omega),
    Nat.div_eq_of_lt hb', Nat.div_eq_of_lt hb, Nat.zero_add] at hdiv
  exact ⟨hdiv.symm, hmod.symm⟩

/-- The cell of bin `b` of frame `f`, after a launch: the entries of the bin times the frame. -/
theorem csr1d_exact [Semiring D] {pixel pixelFloat : P → D} {weight : W → D} (shfl : Bool) (m : Csr W)
    (dense : Nat → P) {stride nframes nbins F wg : Nat} (hF : 1 ≤ F) (hwg : wg % 32 = 0)
    (hpos : 0 < wg) (hmax : wg ≤ 1024) {order : List (Nat × Nat)}
    (horder : order.Perm (grid nbins nframes F)) {f b : Nat} (hf : f < nframes) (hb : b < nbins)
    (out : Nat → D) :
    csr1d shfl (.exact pixel pixelFloat weight) m dense stride nframes nbins F wg order out
        (f * nbins + b) =
      ((List.range' (m.indptr b) (m.indptr (b + 1) - m.indptr b)).map fun k =>
        weight (m.coef k) * pixel (dense (f * stride + m.idx k))).sum := by
  set x := ((List.range' (m.indptr b) (m.indptr (b + 1) - m.indptr b)).map fun k =>
    weight (m.coef k) * pixel (dense (f * stride + m.idx k))).sum with hx
  have hsplit := Nat.div_add_mod' f F
  have hmod := Nat.mod_lt f hF
  -- the turn of the frame sets the cell, every other turn leaves it alone
  have hkeeps : ∀ bin y f', bin < nbins → ¬ (y * F + f' = f ∧ bin = b) → ∀ v (out : Nat → D),
      modifyAt out ((y * F + f') * nbins + bin) (fun _ => v) (f * nbins + b) =
        out (f * nbins + b) := fun bin y f' hbin hne v out =>
    modifyAt_ne _ fun heq => hne (cell_inj hbin hb heq)
  have hturn : ∀ out : Nat → D, (if f % F < min F (nframes - f / F * F) then
      modifyAt out ((f / F * F + f % F) * nbins + b) fun _ => blockSum shfl
        (.exact pixel pixelFloat weight) m (fun i => dense (f / F * F * stride + i)) stride
        (min F (nframes - f / F * F)) F wg b (f % F) else out) (f * nbins + b) = x := by
    intro out
    have hlt : f % F < min F (nframes - f / F * F) := by omega
    have hrow : ∀ p, f / F * F * stride + (f % F * stride + p) = f * stride + p := by
      intro p
      rw [← Nat.add_assoc, ← Nat.add_mul, hsplit]
    rw [if_pos hlt, hsplit, blockSum_exact shfl m _ hwg hpos hmax hlt]
    simp only [modifyAt, if_true, hrow]
    rfl
  have hsets : ∀ out, csr1dBin shfl (.exact pixel pixelFloat weight) m dense stride nframes nbins F wg
      b (f / F) out (f * nbins + b) = x := by
    refine foldl_sets (fun f' _ => ?_) ⟨f % F, List.mem_range.mpr hmod, fun out => ?_⟩
    · by_cases hsame : f' = f % F
      · refine Or.inl fun out => ?_
        subst hsame
        exact hturn out
      · refine Or.inr fun out => ?_
        split
        · exact hkeeps b (f / F) f' hb (by omega) _ out
        · rfl
    · exact hturn out
  refine foldl_sets (fun blk hblk => ?_) ⟨(b, f / F), horder.mem_iff.mpr ?_, hsets⟩ out
  · by_cases hthis : blk.1 = b ∧ blk.2 = f / F
    · rw [hthis.1, hthis.2]
      exact Or.inl hsets
    · refine Or.inr fun out => foldl_keeps (fun f' hf' out => ?_) out
      obtain ⟨bin, hbin, hy⟩ := List.mem_flatMap.mp (horder.mem_iff.mp hblk)
      obtain ⟨y, -, rfl⟩ := List.mem_map.mp hy
      have hlt := List.mem_range.mp hf'
      have hne : ¬ (y * F + f' = f ∧ bin = b) := by
        rintro ⟨hframe, hbin'⟩
        refine hthis ⟨hbin', ?_⟩
        rw [← hframe, Nat.add_comm, Nat.add_mul_div_right _ _ hF, Nat.div_eq_of_lt hlt, Nat.zero_add]
      split
      · exact hkeeps bin y f' (List.mem_range.mp hbin) hne _ out
      · rfl
  · refine List.mem_flatMap.mpr ⟨b, List.mem_range.mpr hb, List.mem_map.mpr ⟨f / F, ?_, rfl⟩⟩
    rw [List.mem_range, Nat.lt_iff_add_one_le, Nat.le_div_iff_mul_le hF, Nat.succ_mul]
    omega

end Bslz4ToSparse.Cuda
