import Mathlib.Data.Nat.Sqrt
import OnnxSim.Operations.Basic

/-!
# The mapping table

`MappingTable` of `Mapping.cc`: the tilings that `gemm_mapping` and `calc_conv_mapping` find for a key,
and the table that keeps them. The lines of a mapping file are read in `MappingLine`. The tiling of a
convolution is a search whose loops are given `fuel` turns. A division by zero, a failed assertion and a
loop that takes more turns are `none`.
-/

namespace OnnxSim

/-- A `LoopCounts` as a key of the table, with the fields that a mapping leaves at their defaults. -/
structure MappingKey extends LoopCounts where
  padding : Nat := 1
  stride : Nat := 1
  targetCore : Nat := 0
  deriving Repr, DecidableEq

namespace MappingKey

/-- `operator<`. -/
def lt (a b : MappingKey) : Bool :=
  if a.N < b.N then true
  else if a.N > b.N then false
  else if a.C < b.C then true
  else if a.C > b.C then false
  else if a.M < b.M then true
  else if a.M > b.M then false
  else if a.S < b.S then true
  else if a.S > b.S then false
  else if a.R < b.R then true
  else if a.R > b.R then false
  else if a.Q < b.Q then true
  else if a.Q > b.Q then false
  else if a.padding > b.padding then false
  else if a.stride > b.stride then false
  else decide (a.P < b.P)

/-- The keys of a matrix multiplication. -/
def IsGemm (key : MappingKey) : Prop := key.P = 1 ∧ key.Q = 1 ∧ key.S = 1 ∧ key.R = 1

/-- The keys of a convolution. -/
def IsConv (key : MappingKey) : Prop := key.P = key.Q ∧ key.S = key.R

instance (key : MappingKey) : Decidable key.IsGemm := inferInstanceAs (Decidable (_ ∧ _))

instance (key : MappingKey) : Decidable key.IsConv := inferInstanceAs (Decidable (_ ∧ _))

end MappingKey

/-! ## Matrix multiplications -/

/-- The fields of a core that the tilers read. -/
structure TilerCore where
  dim : Nat
  width : Nat
  spadSize : Nat
  accumSpadSize : Nat
  deriving Repr, DecidableEq

def SimulationConfig.tilerCore (config : SimulationConfig) (core : Nat) : TilerCore where
  dim := (config.coreConfig core).coreHeight
  width := (config.coreConfig core).coreWidth
  spadSize := (config.coreConfig core).spadSize
  accumSpadSize := (config.coreConfig core).accumSpadSize

namespace GemmMapping

def ceilDiv (a b : Nat) : Nat := (a + b - 1) / b

/-- `pad_up`. -/
def padUp (dim x : Nat) : Nat := ceilDiv x dim * dim

/-- The outer tile counts that `gemm_mapping` starts from, for `N`, `M` and `C`. -/
def tiles (core : TilerCore) (precision : Nat) (dimI dimJ dimK : Nat) : Nat × Nat × Nat :=
  let dim := core.dim
  let maxSpadRows := core.spadSize * 1024 / (dim * precision * 2)
  let maxAccRows := core.accumSpadSize * 1024 / (dim * 4 * 2)
  let acc := max 1 (maxAccRows / dim)
  let part := max 1 (maxSpadRows / 2 / dim)
  let sq := max 1 acc.sqrt
  let tk := max 1 (part / sq)
  (max 1 (min (padUp dim dimI / dim) (ceilDiv dimI (sq * dim))),
    max 1 (min (padUp dim dimJ / dim) (ceilDiv dimJ (sq * dim))),
    max 1 (min (padUp dim dimK / dim) (ceilDiv dimK (tk * dim))))

/-- Core utilization fix: more tiles along the longer of `N` and `M`. -/
def spread (numCores dimI dimJ : Nat) (tiles : Nat × Nat × Nat) : Nat × Nat × Nat :=
  let (tI, tJ, tK) := tiles
  if tI * tJ < numCores then
    let inc := ceilDiv numCores (tI * tJ)
    if dimJ ≥ dimI then (tI, tJ * inc, tK) else (tI * inc, tJ, tK)
  else tiles

/-- The inner tile size of a dimension cut into `tiles`, with the thin matrix fix. -/
def inner (dim total tiles : Nat) : Nat :=
  if total < dim then padUp dim total else max dim (padUp dim total / tiles / dim * dim)

end GemmMapping

open GemmMapping in
/-- `gemm_mapping`. -/
def gemmMapping (config : SimulationConfig) (key : MappingKey) : Option Mapping :=
  let core := config.tilerCore key.targetCore
  if core.dim ≠ core.width ∨ core.dim = 0 ∨ config.precision = 0 then none
  else
    let (tI, tJ, tK) := spread config.numCores key.N key.M
      (tiles core config.precision key.N key.M key.C)
    let iI := inner core.dim key.N tI
    let iJ := inner core.dim key.M tJ
    let iK := inner core.dim key.C tK
    some {
      totalLoop := { N := key.N, C := key.C, M := key.M }
      tileOutLoop := {
        N := max 1 (GemmMapping.ceilDiv key.N iI)
        C := max 1 (GemmMapping.ceilDiv key.C iK)
        M := max 1 (GemmMapping.ceilDiv key.M iJ) }
      tileInLoop := { N := iI, C := iK, M := iJ } }

/-! ## Convolutions -/

/-- An `int` in a comparison with a `uint32_t`. -/
def asUnsigned (x : Int) : Nat := (x % 2 ^ 32).toNat

/-- `_calc_conv_mapping`. The loop counts are batches, output rows and columns, output channels, kernel
rows and columns, and input channels. -/
def calcConvRows (acc : Bool) (stride inputDilation kernelDilation : Int)
    (downsample transWeight0132 transInput3120 : Bool)
    (batches porows pocols ochs krows kcols kchs poolSize poolStride dim : Int) : Int :=
  let orows := porows * poolStride + poolSize - 1
  let ocols := pocols * poolStride + poolSize - 1
  let krowsDilated := krows + (kernelDilation - 1) * (krows - 1)
  let kcolsDilated := kcols + (kernelDilation - 1) * (kcols - 1)
  let ceil := fun a b : Int => a.tdiv b + if a.tmod b ≠ 0 then 1 else 0
  let irows := ceil (orows * stride + krowsDilated - 1) inputDilation
  let icols := ceil (ocols * stride + kcolsDilated - 1) inputDilation
  let ichs := kchs
  let inChannelsPerBank := ceil ichs dim
  let outChannelsPerBank := ceil ochs dim
  let batchesPerBank := ceil batches dim
  let shift : Nat := if downsample then 1 else 0
  let aRows :=
    if transInput3120 then batchesPerBank * ichs * (irows >>> shift) * (icols >>> shift)
    else inChannelsPerBank * batches * (irows >>> shift) * (icols >>> shift)
  let bRows :=
    if transWeight0132 then inChannelsPerBank * kcols * krows * ochs
    else outChannelsPerBank * kcols * krows * kchs
  let cRows := outChannelsPerBank * batches * orows * ocols
  if acc then cRows else aRows + bRows

/-- What the search for the tiling of a convolution does not change. -/
structure ConvSearch where
  core : TilerCore
  precision : Nat
  stride : Int
  padding : Int
  kernelDim : Int
  /-- `max_args`. -/
  maxArgs : List Int

namespace ConvSearch

variable (c : ConvSearch)

def maxSpadRows : Nat := c.core.spadSize * 1024 / (c.core.dim * c.precision * 2)

def maxAccRows : Nat := c.core.accumSpadSize * 1024 / (c.core.dim * 4 * 2)

def rows (acc : Bool) (args : List Int) : Int :=
  calcConvRows acc c.stride 1 1
    (decide (c.stride = 2) && decide (c.kernelDim = 1) && decide (c.padding = 0)) false false
    (args.getD 0 0) (args.getD 1 0) (args.getD 2 0) (args.getD 3 0) (args.getD 4 0) (args.getD 5 0)
    (args.getD 6 0) 1 1 c.core.dim

/-- `spad_rows <= max_spad_rows && acc_rows <= max_acc_rows`. -/
def fits (args : List Int) : Bool :=
  decide (asUnsigned (c.rows false args) ≤ c.maxSpadRows ∧
    asUnsigned (c.rows true args) ≤ c.maxAccRows)

/-- The largest loop count and its place. The output columns are not reduced where possible, to keep
the spatial array fully utilized. -/
def largest (args : List Int) : Int × Int :=
  (List.range 7).foldl (fun best i =>
    if ¬ (i = 2 ∧ asUnsigned (args.getD i 0) ≤ c.core.dim ∧ 1 < args.getD 1 0) ∧
        best.1 < args.getD i 0 then (args.getD i 0, (i : Int)) else best) (-1, -1)

/-- The body of the first loop: the largest loop count is reduced. -/
def shrink (args : List Int) : Option (List Int) :=
  let i := (c.largest args).2
  if i < 0 then none
  else
    let i := i.toNat
    let arg := args.getD i 0
    if i = 3 ∨ i = 6 then
      -- for input and output channels, there is no point in subtracting by just one
      let arg : Int :=
        if asUnsigned arg % c.core.dim ≠ 0 then asUnsigned arg / c.core.dim * c.core.dim
        else arg - c.core.dim
      some (args.set i (if arg = 0 then 1 else arg))
    else some (args.set i (arg - 1))

/-- The first loop. -/
def shrinkLoop : Nat → List Int → Option (List Int)
  | 0, _ => none
  | fuel + 1, args => if c.fits args then some args else (c.shrink args).bind (shrinkLoop fuel)

/-- The loop count at `i` is one more. -/
def grown (args : List Int) (i : Nat) : List Int := args.set i (args.getD i 0 + 1)

/-- The second loop: the output columns grow while they fit. -/
def growColumns : Nat → List Int → Option (List Int)
  | 0, _ => none
  | fuel + 1, args =>
    let candidate := grown args 2
    if candidate.getD 2 0 ≤ c.maxArgs.getD 2 0 ∧ c.fits candidate then growColumns fuel candidate
    else some args

/-- Whether the tiles of the input and the weights leave room in the scratchpad. -/
def leavesRoom (args : List Int) : Bool :=
  let arg := fun i => args.getD i 0
  let weightTileSize := arg 0 * arg 3 * arg 4 * arg 5 * arg 6 * c.precision
  let inputTileSize :=
    arg 0 * (arg 1 + 2 * c.padding) * (arg 2 + 2 * c.padding) * arg 6 * c.precision
  decide (asUnsigned (((inputTileSize + weightTileSize) * 3) >>> (1 : Nat)) ≤ c.core.spadSize * 1024 / 2)

/-- The body of the third loop: each loop count grows by one where that fits. -/
def growEach (args : List Int) : List Int × Bool :=
  (List.range 7).foldl (fun st i =>
    let candidate := grown st.1 i
    if candidate.getD i 0 ≤ c.maxArgs.getD i 0 ∧ c.fits candidate ∧ c.leavesRoom st.1 then
      (candidate, true)
    else st) (args, false)

/-- The third loop. -/
def growLoop : Nat → List Int → Option (List Int)
  | 0, _ => none
  | fuel + 1, args =>
    match c.growEach args with
    | (args, true) => growLoop fuel args
    | (args, false) => some args

end ConvSearch

/-- `calc_conv_mapping`. -/
def calcConvMapping (config : SimulationConfig) (fuel : Nat) (key : MappingKey) :
    Option Mapping :=
  let core := config.tilerCore key.targetCore
  if core.dim = 0 ∨ config.precision = 0 then none
  else do
    let maxArgs : List Int := [1, key.P, key.P, key.M, key.S, key.S, key.C]
    let c : ConvSearch := {
      core := core
      precision := config.precision
      stride := key.stride
      padding := key.padding
      kernelDim := key.S
      maxArgs := maxArgs }
    let args ← c.shrinkLoop fuel maxArgs
    let args ← c.growColumns fuel args
    let args ← c.growLoop fuel args
    let arg := fun i => args.getD i 0
    some {
      totalLoop := {
        N := key.N, C := key.C, M := key.M, S := key.S, R := key.S, Q := key.P, P := key.P }
      tileOutLoop := {
        N := ceilDiv key.N (asUnsigned (arg 0))
        C := ceilDiv key.C (asUnsigned (arg 6))
        M := ceilDiv key.M (asUnsigned (arg 3))
        S := ceilDiv key.S (asUnsigned (arg 4))
        R := ceilDiv key.S (asUnsigned (arg 5))
        Q := ceilDiv key.P (asUnsigned (arg 2))
        P := ceilDiv key.P (asUnsigned (arg 1)) }
      tileInLoop := {
        N := asUnsigned (arg 0)
        C := asUnsigned (arg 6)
        M := asUnsigned (arg 3)
        S := asUnsigned (arg 4)
        R := asUnsigned (arg 5)
        Q := asUnsigned (arg 2)
        P := asUnsigned (arg 1) } }

end OnnxSim
