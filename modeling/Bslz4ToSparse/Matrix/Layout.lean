import Bslz4ToSparse.Foundation.Rounds
import Bslz4ToSparse.Matrix.BsbCsr
import Bslz4ToSparse.Matrix.Fixed
import Bslz4ToSparse.Matrix.Padded
import Bslz4ToSparse.Pixel

/-!
# The layout of each dot (src/_matrix.py)

`build` lays the matrix out for a dot, or says why the dot cannot represent it. `auto_dot`
picks a dot from what the matrix is; what it picks, `build` accepts.
-/

namespace Bslz4ToSparse.Matrix

open Foundation

variable {F : Type}

/-- The values of the dot step, in the order of their numbers 1..12. -/
inductive DotName where
  | csc | padded | paddedAvx2 | cscRun | cscNosplit | bsbCsr | bsbCsrNosplit | cscPermute
  | cscInt | cscRunInt | cscRunInt16 | cscNosplitInt
  deriving DecidableEq, Repr

namespace DotName

/-- `INT_DOTS`. -/
def isInt : DotName → Bool
  | cscInt | cscRunInt | cscRunInt16 => true
  | _ => false

/-- `_BLOCK_DOTS`: the layouts that depend on the block size. -/
def isBlock : DotName → Bool
  | padded | paddedAvx2 | bsbCsr | bsbCsrNosplit => true
  | _ => false

/-- The bits of a weight of an integer dot. -/
def wbits (dot : DotName) : Nat := if dot = cscRunInt16 then 16 else 32

end DotName

/-- `_Family`, as far as it decides a layout: the mask-folded matrix, and the integer weights made
from it. -/
structure Family (F : Type) where
  nm : NormalMatrix F
  fixed : Option ((w : Nat) × FixedPointMatrix F w)
  fixed_nm : ∀ fx ∈ fixed, fx.2.nm = nm

/-- Why `build` refuses. -/
inductive BuildError where
  | layout (why : LayoutError)
  | needsInt (dot : DotName)               -- a fixed_point_matrix needs an integer dot
  | needsFixed (dot : DotName)             -- needs the matrix prepared by fixed_point_matrix
  | weights (dot : DotName) (wbits : Nat)  -- takes weights of another width
  deriving DecidableEq, Repr

/-- `Layout`: the arrays that a dot reads. -/
inductive Layout (F : Type) where
  | csc (m : NormalMatrix F)
  | run (m : NormalMatrix F) (starts : List Nat)
  | nosplit (bins : List Nat)
  | nosplitInt (bins : List Nat)
  | permute (bins : List Nat)
  | cscInt (w : Nat) (m : NormalMatrix (BitVec w))
  | runInt (w : Nat) (m : NormalMatrix (BitVec w)) (starts : List Nat)
  | padded (avx2 : Bool) (l : PaddedLayout F)
  | bsbCsr (q : BsbCsr F) (m : NormalMatrix F)
  | bsbCsrNosplit (q : BsbCsr F) (bins : List Nat)

namespace Layout

/-- `dot`. -/
def dot : Layout F → DotName
  | csc _ => .csc
  | run _ _ => .cscRun
  | nosplit _ => .cscNosplit
  | nosplitInt _ => .cscNosplitInt
  | permute _ => .cscPermute
  | cscInt _ _ => .cscInt
  | runInt w _ _ => if w = 16 then .cscRunInt16 else .cscRunInt
  | padded avx2 _ => if avx2 then .paddedAvx2 else .padded
  | bsbCsr _ _ => .bsbCsr
  | bsbCsrNosplit _ _ => .bsbCsrNosplit

/-- `block_elems`: the block size it was built for, if it depends on it. -/
def blockElems : Layout F → Option Nat
  | padded _ l => some l.blockElems
  | bsbCsr q _ | bsbCsrNosplit q _ => some q.blockElems
  | _ => none

end Layout

namespace Family

variable [DecidableEq F] [Zero F] [One F] [Inhabited F] (f : Family F)

/-- The weights of an integer dot. -/
def intWeights (dot : DotName) : Except BuildError ((w : Nat) × FixedPointMatrix F w) :=
  match f.fixed with
  | none => .error (.needsFixed dot)
  | some fx => if fx.1 = dot.wbits then .ok fx else .error (.weights dot fx.1)

/-- The arrays of csc-run-int and csc-run-int16. -/
def runIntLayout (dot : DotName) : Except BuildError (Layout F) := do
  let fx ← f.intWeights dot
  let starts ← fx.2.starts.mapError .layout
  return .runInt fx.1 fx.2.weights starts

/-- `build`. -/
def build (dot : DotName) (blockElems : Nat) : Except BuildError (Layout F) :=
  if f.fixed.isSome && !dot.isInt then .error (.needsInt dot)
  else
    match dot with
    | .csc => .ok (.csc f.nm)
    | .cscRun => (f.nm.runStarts.map (.run f.nm)).mapError .layout
    | .cscNosplit => (f.nm.nosplitBins.map .nosplit).mapError .layout
    | .cscNosplitInt => (f.nm.nosplitBins.map .nosplitInt).mapError .layout
    | .cscPermute => (f.nm.permuteBins.map .permute).mapError .layout
    | .cscInt => (f.intWeights .cscInt).map fun fx => .cscInt fx.1 fx.2.weights
    | .cscRunInt => f.runIntLayout .cscRunInt
    | .cscRunInt16 => f.runIntLayout .cscRunInt16
    | .padded => ((f.nm.padded blockElems).map (.padded false)).mapError .layout
    | .paddedAvx2 => ((f.nm.padded blockElems).map (.padded true)).mapError .layout
    | .bsbCsr => ((f.nm.bsbLayout blockElems).map fun q => .bsbCsr q f.nm).mapError .layout
    | .bsbCsrNosplit => do
        let q ← (f.nm.bsbLayout blockElems).mapError .layout
        let bins ← f.nm.nosplitBins.mapError .layout
        return .bsbCsrNosplit q bins

/-! ## What is built -/

/-- The layouts of a matrix for a block size. -/
inductive Laid (blockElems : Nat) : Layout F → Prop
  | csc : Laid blockElems (.csc f.nm)
  | run {starts : List Nat} (h : f.nm.runStarts = .ok starts) : Laid blockElems (.run f.nm starts)
  | nosplit {bins : List Nat} (h : f.nm.nosplitBins = .ok bins) : Laid blockElems (.nosplit bins)
  | nosplitInt {bins : List Nat} (h : f.nm.nosplitBins = .ok bins) :
      Laid blockElems (.nosplitInt bins)
  | permute {bins : List Nat} (h : f.nm.permuteBins = .ok bins) : Laid blockElems (.permute bins)
  | cscInt {fx : (w : Nat) × FixedPointMatrix F w} (h : f.fixed = some fx) :
      Laid blockElems (.cscInt fx.1 fx.2.weights)
  | runInt {fx : (w : Nat) × FixedPointMatrix F w} {starts : List Nat} (h : f.fixed = some fx)
      (hs : fx.2.starts = .ok starts) : Laid blockElems (.runInt fx.1 fx.2.weights starts)
  | padded (avx2 : Bool) {l : PaddedLayout F} (h : f.nm.padded blockElems = .ok l) :
      Laid blockElems (.padded avx2 l)
  | bsbCsr (h : blockElems ≤ bsbMaxBlockElems) :
      Laid blockElems (.bsbCsr (f.nm.bsbCsr blockElems) f.nm)
  | bsbCsrNosplit {bins : List Nat} (h : blockElems ≤ bsbMaxBlockElems)
      (hb : f.nm.nosplitBins = .ok bins) :
      Laid blockElems (.bsbCsrNosplit (f.nm.bsbCsr blockElems) bins)

end Family

theorem map_mapError_ok {α β ε ε' : Type} {x : Except ε α} {g : α → β} {e : ε → ε'} {y : β}
    (h : (x.map g).mapError e = .ok y) : ∃ a, x = .ok a ∧ g a = y := by
  cases x with
  | error why => exact absurd h (by simp [Except.map, Except.mapError])
  | ok a => exact ⟨a, rfl, Except.ok.inj h⟩

theorem mapError_ok {α ε ε' : Type} {x : Except ε α} {e : ε → ε'} {a : α}
    (h : x.mapError e = .ok a) : x = .ok a := by
  cases x with
  | error why => exact absurd h (by simp [Except.mapError])
  | ok a' => exact congrArg _ (Except.ok.inj h)

theorem NormalMatrix.bsbLayout_ok [Inhabited F] {m : NormalMatrix F} {blockElems : Nat}
    {q : BsbCsr F} (h : m.bsbLayout blockElems = .ok q) :
    blockElems ≤ bsbMaxBlockElems ∧ m.bsbCsr blockElems = q := by
  unfold bsbLayout at h
  split at h
  · exact absurd h (by simp)
  next hle => exact ⟨not_lt.mp hle, Except.ok.inj h⟩

theorem PaddedLayout.blockElems_eq [Zero F] [Inhabited F] {m : NormalMatrix F} {blockElems : Nat}
    {l : PaddedLayout F} (h : m.padded blockElems = .ok l) : l.blockElems = blockElems := by
  obtain ⟨-, keep, hrows⟩ := m.padded_spec h
  exact hrows.blockElems_eq

theorem NormalMatrix.bsbCsr_blockElems [Inhabited F] (m : NormalMatrix F) (blockElems : Nat) :
    (m.bsbCsr blockElems).blockElems = blockElems := by
  rw [bsbCsr]
  split <;> rfl

namespace Family

variable [DecidableEq F] [Zero F] [One F] [Inhabited F] {f : Family F} {dot : DotName}
  {blockElems : Nat} {lay : Layout F}

omit [DecidableEq F] [Zero F] [One F] [Inhabited F] in
theorem intWeights_ok {fx : (w : Nat) × FixedPointMatrix F w} (h : f.intWeights dot = .ok fx) :
    f.fixed = some fx ∧ fx.1 = dot.wbits := by
  unfold intWeights at h
  cases hfixed : f.fixed with
  | none =>
    rw [hfixed] at h
    exact absurd h (by simp)
  | some fx' =>
    simp only [hfixed] at h
    split at h
    · next hw =>
      obtain rfl := Except.ok.inj h
      exact ⟨rfl, hw⟩
    · exact absurd h (by simp)

omit [DecidableEq F] [Zero F] [One F] [Inhabited F] in
theorem runIntLayout_ok (h : f.runIntLayout dot = .ok lay) :
    ∃ fx starts, f.fixed = some fx ∧ fx.1 = dot.wbits ∧ fx.2.starts = .ok starts ∧
      lay = .runInt fx.1 fx.2.weights starts := by
  unfold runIntLayout at h
  obtain ⟨fx, hfx, h⟩ := bind_eq_ok.mp h
  obtain ⟨starts, hs, h⟩ := bind_eq_ok.mp h
  obtain ⟨hfixed, hw⟩ := intWeights_ok hfx
  exact ⟨fx, starts, hfixed, hw, mapError_ok hs, (Except.ok.inj h).symm⟩

/-- What `build` returns is the layout of the dot it was asked for, for the block size it was
given. -/
theorem build_ok (h : f.build dot blockElems = .ok lay) :
    f.Laid blockElems lay ∧ lay.dot = dot ∧
      lay.blockElems = if dot.isBlock then some blockElems else none := by
  unfold build at h
  split at h
  · exact absurd h (by simp)
  cases dot <;> simp only at h
  case csc =>
    obtain rfl := Except.ok.inj h
    exact ⟨.csc, rfl, rfl⟩
  case cscRun =>
    obtain ⟨starts, hs, rfl⟩ := map_mapError_ok h
    exact ⟨.run hs, rfl, rfl⟩
  case cscNosplit =>
    obtain ⟨bins, hb, rfl⟩ := map_mapError_ok h
    exact ⟨.nosplit hb, rfl, rfl⟩
  case cscNosplitInt =>
    obtain ⟨bins, hb, rfl⟩ := map_mapError_ok h
    exact ⟨.nosplitInt hb, rfl, rfl⟩
  case cscPermute =>
    obtain ⟨bins, hb, rfl⟩ := map_mapError_ok h
    exact ⟨.permute hb, rfl, rfl⟩
  case cscInt =>
    cases hfx : f.intWeights .cscInt with
    | error why =>
      rw [hfx] at h
      exact absurd h (by simp [Except.map])
    | ok fx =>
      rw [hfx] at h
      obtain rfl := Except.ok.inj h
      exact ⟨.cscInt (intWeights_ok hfx).1, rfl, rfl⟩
  case cscRunInt =>
    obtain ⟨fx, starts, hfixed, hw, hs, rfl⟩ := runIntLayout_ok h
    refine ⟨.runInt hfixed hs, ?_, rfl⟩
    rw [Layout.dot, hw]
    rfl
  case cscRunInt16 =>
    obtain ⟨fx, starts, hfixed, hw, hs, rfl⟩ := runIntLayout_ok h
    refine ⟨.runInt hfixed hs, ?_, rfl⟩
    rw [Layout.dot, hw]
    rfl
  case padded =>
    obtain ⟨l, hl, rfl⟩ := map_mapError_ok h
    exact ⟨.padded false hl, rfl, congrArg some (PaddedLayout.blockElems_eq hl)⟩
  case paddedAvx2 =>
    obtain ⟨l, hl, rfl⟩ := map_mapError_ok h
    exact ⟨.padded true hl, rfl, congrArg some (PaddedLayout.blockElems_eq hl)⟩
  case bsbCsr =>
    obtain ⟨q, hq, rfl⟩ := map_mapError_ok h
    obtain ⟨hle, rfl⟩ := NormalMatrix.bsbLayout_ok hq
    exact ⟨.bsbCsr hle, rfl, congrArg some (f.nm.bsbCsr_blockElems blockElems)⟩
  case bsbCsrNosplit =>
    obtain ⟨q, hq, h⟩ := bind_eq_ok.mp h
    obtain ⟨bins, hb, h⟩ := bind_eq_ok.mp h
    obtain ⟨hle, rfl⟩ := NormalMatrix.bsbLayout_ok (mapError_ok hq)
    obtain rfl := Except.ok.inj h
    exact ⟨.bsbCsrNosplit hle (mapError_ok hb), rfl, congrArg some (f.nm.bsbCsr_blockElems blockElems)⟩

end Family

/-! ## The automatic dot -/

/-- What `analyse` finds. -/
structure Info where
  maxBins : Nat
  occupancy : ℚ
  unitWeights : Bool
  nosplit : Bool
  runs : Bool
  deriving DecidableEq, Repr

/-- `analyse`. -/
def analyse [DecidableEq F] [One F] (m : NormalMatrix F) : Info :=
  let unitWeights := m.notOne == []
  { maxBins := m.used
    occupancy := if m.npix = 0 then 0 else (m.occupied.length : ℚ) / m.npix
    unitWeights
    nosplit := decide (m.used ≤ 1) && unitWeights
    runs := m.runStarts.isOk }

/-- `auto_dot`; no block size stands for a small one. -/
def autoDot (info : Info) (paddedAvx2 : Bool) (blockElems : Option Nat) (intPixels : Bool) : DotName :=
  let bsb := blockElems.all (· ≤ bsbMaxBlockElems)
  if info.nosplit then
    if intPixels then .cscNosplitInt
    else if bsb then .bsbCsrNosplit
    else .cscNosplit
  else if info.runs && decide (info.maxBins ≤ 8) then
    if paddedAvx2 then .paddedAvx2 else .padded
  else if decide (info.occupancy < 1 / 2) && bsb then .bsbCsr
  else if info.runs && decide (info.maxBins ≤ paddedMaxWidth) && blockElems.all (· ≤ 8192) then .padded
  else .csc

/-- What each automatic dot is picked for. -/
inductive Picked (info : Info) (paddedAvx2 : Bool) (blockElems : Option Nat) (intPixels : Bool) :
    DotName → Prop
  | cscNosplitInt (h : info.nosplit = true) (hint : intPixels = true) : Picked _ _ _ _ .cscNosplitInt
  | bsbCsrNosplit (h : info.nosplit = true) (hbe : ∀ be, blockElems = some be → be ≤ bsbMaxBlockElems) :
      Picked _ _ _ _ .bsbCsrNosplit
  | cscNosplit (h : info.nosplit = true) : Picked _ _ _ _ .cscNosplit
  | paddedAvx2 (h : info.runs = true) (hmax : info.maxBins ≤ paddedMaxWidth)
      (havx2 : paddedAvx2 = true) : Picked _ _ _ _ .paddedAvx2
  | padded (h : info.runs = true) (hmax : info.maxBins ≤ paddedMaxWidth) : Picked _ _ _ _ .padded
  | bsbCsr (hbe : ∀ be, blockElems = some be → be ≤ bsbMaxBlockElems) : Picked _ _ _ _ .bsbCsr
  | csc : Picked _ _ _ _ .csc

theorem autoDot_picked (info : Info) (paddedAvx2 : Bool) (blockElems : Option Nat)
    (intPixels : Bool) :
    Picked info paddedAvx2 blockElems intPixels (autoDot info paddedAvx2 blockElems intPixels) := by
  simp only [autoDot, Bool.and_eq_true, decide_eq_true_eq, Option.all_eq_true]
  by_cases hn : info.nosplit = true
  · rw [if_pos hn]
    by_cases hi : intPixels = true
    · rw [if_pos hi]
      exact .cscNosplitInt hn hi
    · rw [if_neg hi]
      by_cases hb : ∀ be, blockElems = some be → be ≤ bsbMaxBlockElems
      · rw [if_pos hb]
        exact .bsbCsrNosplit hn hb
      · rw [if_neg hb]
        exact .cscNosplit hn
  · rw [if_neg hn]
    by_cases hr : info.runs = true ∧ info.maxBins ≤ 8
    · rw [if_pos hr]
      have hmax : info.maxBins ≤ paddedMaxWidth := hr.2.trans (by decide)
      by_cases ha : paddedAvx2 = true
      · rw [if_pos ha]
        exact .paddedAvx2 hr.1 hmax ha
      · rw [if_neg ha]
        exact .padded hr.1 hmax
    · rw [if_neg hr]
      by_cases ho : info.occupancy < 1 / 2 ∧ ∀ be, blockElems = some be → be ≤ bsbMaxBlockElems
      · rw [if_pos ho]
        exact .bsbCsr ho.2
      · rw [if_neg ho]
        by_cases hw : (info.runs = true ∧ info.maxBins ≤ paddedMaxWidth) ∧ ∀ be, blockElems = some be → be ≤ 8192
        · rw [if_pos hw]
          exact .padded hw.1.1 hw.1.2
        · rw [if_neg hw]
          exact .csc

/-- The automatic dot is none of the integer dots, which take a fixed-point matrix. -/
theorem autoDot_not_int (info : Info) (paddedAvx2 : Bool) (blockElems : Option Nat)
    (intPixels : Bool) :
    (autoDot info paddedAvx2 blockElems intPixels).isInt = false := by
  have hpick := autoDot_picked info paddedAvx2 blockElems intPixels
  generalize autoDot info paddedAvx2 blockElems intPixels = dot at hpick ⊢
  cases hpick <;> rfl

/-- Another block size changes the automatic dot of a block of at most 8192 pixels only for one
that does not depend on it. -/
theorem autoDot_block (info : Info) (paddedAvx2 intPixels : Bool) {be be' : Nat} (hbe : be ≤ 8192)
    (h : (autoDot info paddedAvx2 (some be') intPixels).isBlock = true) :
    autoDot info paddedAvx2 (some be') intPixels = autoDot info paddedAvx2 (some be) intPixels := by
  have hbsb : be ≤ bsbMaxBlockElems := hbe.trans (by decide)
  by_cases hsmall : be' ≤ 8192
  · have hbsb' : be' ≤ bsbMaxBlockElems := hsmall.trans (by decide)
    simp only [autoDot, Option.all_some, hbsb, hbsb', hbe, hsmall]
  · -- a larger block loses bsb-csr or the wide padded rows, to a csc dot
    unfold autoDot at h ⊢
    simp only [Option.all_some, hbsb, hbe, hsmall, decide_true, decide_false, Bool.and_true, Bool.and_false] at h ⊢
    split_ifs at h ⊢ <;> first | rfl | exact absurd h (by decide) | simp_all

theorem analyse_nosplit [DecidableEq F] [One F] {m : NormalMatrix F}
    (h : (analyse m).nosplit = true) : ∃ bins, m.nosplitBins = .ok bins := by
  obtain ⟨hused, hone⟩ := Bool.and_eq_true_iff.mp h
  have hmany : m.manyBins = [] := by
    apply List.filter_eq_nil_iff.mpr
    intro n hn
    obtain ⟨p, hp, rfl⟩ := List.mem_map.mp hn
    have hle := m.count_le_used (List.mem_range.mp hp)
    have hle' := of_decide_eq_true hused
    simp only [decide_eq_true_eq, not_lt]
    omega
  rw [NormalMatrix.nosplitBins, if_neg (not_not_intro hmany),
    if_neg (not_not_intro (by simpa using hone))]
  exact ⟨_, rfl⟩

theorem analyse_runs [DecidableEq F] [One F] {m : NormalMatrix F} (h : (analyse m).runs = true) :
    m.brokenPixels = [] := by
  have hok : m.runStarts.isOk = true := h
  by_contra hb
  rw [NormalMatrix.runStarts, if_neg hb] at hok
  cases hok

/-- A matrix of runs of at most 64 bins can be padded. -/
theorem padded_of_runs [DecidableEq F] [Zero F] [One F] [Inhabited F] {m : NormalMatrix F}
    (hruns : (analyse m).runs = true) (hmax : (analyse m).maxBins ≤ paddedMaxWidth) (be : Nat) :
    ∃ l, m.padded be = .ok l := by
  have hwidth : ¬ paddedMaxWidth < m.paddedWidth := by
    have hused : m.used ≤ paddedMaxWidth := hmax
    rw [NormalMatrix.paddedWidth, not_lt]
    exact max_le hused (by decide)
  rw [NormalMatrix.padded, if_neg hwidth, if_neg (not_not_intro (analyse_runs hruns))]
  by_cases hlisted : 2 * m.occupied.length < m.npix
  · exact ⟨_, if_pos hlisted⟩
  · exact ⟨_, if_neg hlisted⟩

namespace Family

variable [DecidableEq F] [Zero F] [One F] [Inhabited F] (f : Family F)

/-- What `auto_dot` picks for a matrix at a block size, `build` accepts. -/
theorem build_autoDot (hfixed : f.fixed = none) (paddedAvx2 : Bool) (be : Nat) (intPixels : Bool) :
    ∃ lay, f.build (autoDot (analyse f.nm) paddedAvx2 (some be) intPixels) be = .ok lay := by
  have hpadded : (analyse f.nm).runs = true → (analyse f.nm).maxBins ≤ paddedMaxWidth →
      ∀ avx2, ∃ lay, ((f.nm.padded be).map (Layout.padded avx2)).mapError BuildError.layout =
        .ok lay := by
    intro hruns hmax avx2
    obtain ⟨l, hl⟩ := padded_of_runs hruns hmax be
    exact ⟨.padded avx2 l, by rw [hl]; rfl⟩
  have hbsb : be ≤ bsbMaxBlockElems → f.nm.bsbLayout be = .ok (f.nm.bsbCsr be) :=
    fun hle => if_neg (not_lt.mpr hle)
  have hpick := autoDot_picked (analyse f.nm) paddedAvx2 (some be) intPixels
  generalize autoDot (analyse f.nm) paddedAvx2 (some be) intPixels = dot at hpick ⊢
  cases hpick with
  | cscNosplitInt hn =>
    obtain ⟨bins, hbins⟩ := analyse_nosplit hn
    exact ⟨.nosplitInt bins, by simp [build, hfixed, hbins, Except.map, Except.mapError]⟩
  | bsbCsrNosplit hn hbe =>
    obtain ⟨bins, hbins⟩ := analyse_nosplit hn
    refine ⟨.bsbCsrNosplit (f.nm.bsbCsr be) bins, ?_⟩
    simp only [build, hfixed, hbsb (hbe be rfl), hbins, Except.mapError]
    rfl
  | cscNosplit hn =>
    obtain ⟨bins, hbins⟩ := analyse_nosplit hn
    exact ⟨.nosplit bins, by simp [build, hfixed, hbins, Except.map, Except.mapError]⟩
  | paddedAvx2 hruns hmax => simpa [build, hfixed] using hpadded hruns hmax true
  | padded hruns hmax => simpa [build, hfixed] using hpadded hruns hmax false
  | bsbCsr hbe =>
    refine ⟨.bsbCsr (f.nm.bsbCsr be) f.nm, ?_⟩
    simp only [build, hfixed, hbsb (hbe be rfl)]
    rfl
  | csc => exact ⟨.csc f.nm, by simp [build, hfixed]⟩

variable {f}

/-- Only an integer dot is laid out for a fixed-point matrix. -/
theorem fixed_none_of_build {dot : DotName} {be : Nat} {lay : Layout F}
    (h : f.build dot be = .ok lay) (hdot : dot.isInt = false) : f.fixed = none := by
  unfold build at h
  split at h
  · cases h
  next hok => simpa [hdot] using hok

end Family

/-! ## The layouts of a family -/

/-- The key of a layout: the block size matters to the block dots, the pixel type to csc-permute. -/
structure LayoutKey where
  dot : DotName
  blockElems : Option Nat
  dtype : Option Dtype
  deriving DecidableEq, Repr

def layoutKey (dot : DotName) (blockElems : Nat) (t : Dtype) : LayoutKey :=
  ⟨dot, if dot.isBlock then some blockElems else none, if dot = .cscPermute then some t else none⟩

/-- The layouts built so far. -/
abbrev Layouts (F : Type) := List (LayoutKey × Layout F)

/-- Why no layout is made. -/
inductive LayoutFailure where
  | refused (why : BuildError)    -- a ValueError of `build`
  | zeroDivision                  -- a block of no pixel
  deriving DecidableEq, Repr

namespace Family

variable [DecidableEq F] [Zero F] [One F] [Inhabited F] (f : Family F)

/-- `layout`: built on the first request, kept, and what is refused is not. -/
def layout (layouts : Layouts F) (dot : DotName) (blockElems : Nat) (t : Dtype) :
    Layouts F × Except LayoutFailure (Layout F) :=
  match layouts.lookup (layoutKey dot blockElems t) with
  | some lay => (layouts, .ok lay)
  | none =>
    if dot.isBlock && blockElems == 0 then (layouts, .error .zeroDivision)
    else
      match f.build dot blockElems with
      | .ok lay => ((layoutKey dot blockElems t, lay) :: layouts, .ok lay)
      | .error why => (layouts, .error (.refused why))

/-- What is kept was built for its key. -/
def Kept (layouts : Layouts F) : Prop :=
  ∀ e ∈ layouts, ∃ be t, e.1 = layoutKey e.1.dot be t ∧ f.build e.1.dot be = .ok e.2

variable {f}

theorem kept_nil : f.Kept [] := fun _ h => absurd h List.not_mem_nil

/-- A request keeps the layouts, and answers with one that was built for the same dot and, where it
matters, the same block size. -/
theorem layout_kept {layouts : Layouts F} (h : f.Kept layouts) (dot : DotName) (be : Nat) (t : Dtype) :
    f.Kept (f.layout layouts dot be t).1 ∧ ∀ lay, (f.layout layouts dot be t).2 = .ok lay →
      ∃ be', f.build dot be' = .ok lay ∧ (dot.isBlock = true → be' = be) := by
  unfold layout
  cases hlookup : layouts.lookup (layoutKey dot be t) with
  | some lay =>
    refine ⟨h, fun lay' hlay => ?_⟩
    obtain rfl := Except.ok.inj hlay
    have hmem : (layoutKey dot be t, lay) ∈ layouts := by
      obtain ⟨before, after, heq, -⟩ := List.lookup_eq_some_iff.mp hlookup
      rw [heq]
      exact List.mem_append_right _ List.mem_cons_self
    obtain ⟨be', t', hkey, hbuild⟩ := h _ hmem
    refine ⟨be', hbuild, fun hblock => ?_⟩
    have hsize := congrArg LayoutKey.blockElems hkey
    simpa [layoutKey, hblock] using hsize.symm
  | none =>
    by_cases hzero : (dot.isBlock && be == 0) = true
    · simp only [hzero, if_true]
      exact ⟨h, fun lay hlay => by cases hlay⟩
    · simp only [hzero]
      cases hbuild : f.build dot be with
      | error why => exact ⟨h, fun lay hlay => by cases hlay⟩
      | ok lay =>
        refine ⟨fun e he => ?_, fun lay' hlay => ?_⟩
        · rcases List.mem_cons.mp he with rfl | hmem
          · exact ⟨be, t, rfl, hbuild⟩
          · exact h e hmem
        · obtain rfl := Except.ok.inj hlay
          exact ⟨be, hbuild, fun _ => rfl⟩

/-- A request for a dot that can be built is answered. -/
theorem layout_answers (layouts : Layouts F) {dot : DotName} {be : Nat} (t : Dtype)
    (hbe : 1 ≤ be) (hbuild : ∃ lay, f.build dot be = .ok lay) :
    ∃ lay, (f.layout layouts dot be t).2 = .ok lay := by
  obtain ⟨lay, hlay⟩ := hbuild
  have hzero : (dot.isBlock && be == 0) = false := by
    have hne : (be == 0) = false := by simpa using Nat.ne_of_gt hbe
    rw [hne, Bool.and_false]
  unfold layout
  cases layouts.lookup (layoutKey dot be t) with
  | some kept => exact ⟨kept, rfl⟩
  | none =>
    rw [hzero, hlay]
    exact ⟨lay, rfl⟩

end Family

end Bslz4ToSparse.Matrix
