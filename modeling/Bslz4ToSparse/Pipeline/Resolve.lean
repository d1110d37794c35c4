import Bslz4ToSparse.Matrix.Layout
import Bslz4ToSparse.Pipeline.Codec

/-!
# Resolving a pipeline (src/_pipeline.py)

`resolve` fills the steps that were left automatic and refuses what the data, the pixel type
or the CPU do not allow. This is the one for an object with a matrix.
-/

namespace Bslz4ToSparse.Pipeline

open Foundation Matrix Steps

/-- A value for each step, `none` for auto. -/
structure PipelineArg where
  decode : Option Decode
  mask : Option MaskStep
  untranspose : Option Untranspose
  collect : Option Collect
  route : Option Route
  dot : Option DotName
  deriving DecidableEq, Repr

/-- A resolved pipeline. -/
structure StepValues where
  decode : Decode
  mask : MaskStep
  untranspose : Untranspose
  collect : Collect
  route : Route
  dot : DotName
  deriving DecidableEq, Repr

/-- The machine, as `platform.machine` and `step_available` tell of it. -/
structure Host where
  x86 : Bool
  untranspose : Untranspose → Bool
  collect : Collect → Bool
  paddedAvx2 : Bool

/-- `step_available` of a dot. -/
def Host.dot (host : Host) (dot : DotName) : Bool := dot != .paddedAvx2 || host.paddedAvx2

/-- Why `resolve` refuses. -/
inductive ResolveError where
  | cpuUntranspose (value : Untranspose)
  | cpuCollect (value : Collect)
  | cpuDot (value : DotName)
  | pixelFrames                       -- 'pixels' is for uncompressed frames
  | zstdData (decode : Decode)        -- the data is zstd compressed
  | lz4Data                           -- the data is lz4 compressed
  | maskedPixels                      -- 'none' with masked pixels
  | lowplanesPixels (t : Dtype)       -- the low planes are for u16 pixels
  | collectPixels (t : Dtype)         -- for u16 and u32 pixels
  | intPixels (dot : DotName) (t : Dtype)
  deriving DecidableEq, Repr

/-- `raise ValueError` where a check fails. -/
def refuseStep (c : Bool) (e : ResolveError) : Except ResolveError Unit :=
  if c then .error e else .ok ()

theorem refuseStep_ok {c : Bool} {e : ResolveError} {u : Unit} :
    refuseStep c e = .ok u ↔ c = false := by
  cases c <;> simp [refuseStep]

section

variable (host : Host) (t : Dtype)

/-- `auto_step` of the decode step. -/
def autoDecode (codec : Codec) : Decode :=
  match codec with
  | .zstd => .zstd
  | .lz4 => if host.x86 then .lz4Band else .lz4Zero

/-- `auto_step` of the mask step. -/
def autoMask (allValid : Bool) : MaskStep := if allValid then .none else .pixel

/-- `auto_step` of the untranspose step. -/
def autoUntranspose : Untranspose :=
  if t = .u16 then
    ([.lowplanesVbmi, .lowplanesAvx2, .lowplanesVsx, .lowplanesC].find? host.untranspose).getD .kcb
  else .kcb

/-- `auto_step` of the collect step. -/
def autoCollect : Collect :=
  if t = .u16 ∨ t = .u32 then
    ([.avx512cs, .avx2cs, .vsx, .neon, .sse2].find? host.collect).getD .scalar
  else .scalar

/-- Integer pixels of at most 32 bits. -/
def intPixels32 : Bool := !t.isFloat && decide (t.size ≤ 4)

/-- `resolve` with a matrix. -/
def resolve (arg : PipelineArg) (codec : Codec) (allValid : Bool) (dotAuto : DotName) :
    Except ResolveError StepValues := do
  let decode := arg.decode.getD (autoDecode host codec)
  let mask := arg.mask.getD (autoMask allValid)
  let untranspose := arg.untranspose.getD (autoUntranspose host t)
  refuseStep (!host.untranspose untranspose) (.cpuUntranspose untranspose)
  let collect := arg.collect.getD (autoCollect host t)
  refuseStep (!host.collect collect) (.cpuCollect collect)
  let route := arg.route.getD .bppRule
  refuseStep (decode == .pixels) .pixelFrames
  refuseStep (codec == .zstd && decode != .zstd) (.zstdData decode)
  refuseStep (codec != .zstd && decode == .zstd) .lz4Data
  refuseStep (mask == .none && !allValid) .maskedPixels
  refuseStep (untranspose.lowplanes && t != .u16) (.lowplanesPixels t)
  refuseStep (collect != .scalar && !(t == .u16 || t == .u32)) (.collectPixels t)
  let dot := arg.dot.getD dotAuto
  refuseStep (!host.dot dot) (.cpuDot dot)
  refuseStep (dot.isInt && t.isFloat) (.intPixels dot t)
  refuseStep (dot == .cscNosplitInt && !intPixels32 t) (.intPixels dot t)
  return ⟨decode, mask, untranspose, collect, route, dot⟩

variable {host t}

/-- What the driver relies on in a resolved pipeline. -/
structure Resolved (arg : PipelineArg) (dotAuto : DotName) (v : StepValues) : Prop where
  dot : v.dot = arg.dot.getD dotAuto
  lowplanes_u16 : v.untranspose.lowplanes = true → t = .u16
  collect_simd : v.collect ≠ .scalar → t = .u16 ∨ t = .u32
  not_pixels : v.decode ≠ .pixels

theorem resolve_ok {arg : PipelineArg} {codec : Codec} {allValid : Bool} {dotAuto : DotName}
    {v : StepValues} (h : resolve host t arg codec allValid dotAuto = .ok v) :
    Resolved (t := t) arg dotAuto v := by
  unfold resolve at h
  obtain ⟨_, -, h⟩ := bind_eq_ok.mp h
  obtain ⟨_, -, h⟩ := bind_eq_ok.mp h
  obtain ⟨_, hpixels, h⟩ := bind_eq_ok.mp h
  obtain ⟨_, -, h⟩ := bind_eq_ok.mp h
  obtain ⟨_, -, h⟩ := bind_eq_ok.mp h
  obtain ⟨_, -, h⟩ := bind_eq_ok.mp h
  obtain ⟨_, hlow, h⟩ := bind_eq_ok.mp h
  obtain ⟨_, hcollect, h⟩ := bind_eq_ok.mp h
  obtain ⟨_, -, h⟩ := bind_eq_ok.mp h
  obtain ⟨_, -, h⟩ := bind_eq_ok.mp h
  obtain ⟨_, -, h⟩ := bind_eq_ok.mp h
  obtain rfl := Except.ok.inj h
  refine ⟨rfl, fun hl => ?_, fun hc => ?_, ?_⟩
  · have hu16 := refuseStep_ok.mp hlow
    simp only [Bool.and_eq_false_iff, bne_eq_false_iff_eq] at hu16
    exact hu16.resolve_left (by simp [hl])
  · have hsimd := refuseStep_ok.mp hcollect
    simp only [Bool.and_eq_false_iff, bne_eq_false_iff_eq, Bool.not_eq_false', Bool.or_eq_true,
      beq_iff_eq] at hsimd
    exact hsimd.resolve_left hc
  · simpa using refuseStep_ok.mp hpixels

end

end Bslz4ToSparse.Pipeline
