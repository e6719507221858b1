import OnnxSim.Operations.BinaryOp
import OnnxSim.Operations.OperandBounds
import OnnxSim.Operations.ShapeOp
import OnnxSim.Operations.TokenOps
import OnnxSim.Operations.UnaryOp

/-!
# Which accesses of the element-wise operations stay in their operands

The strips of `UnaryOp`, `BinaryOp`, `ShapeOp`, `BiasAct` and `SkipLayerNorm`. An operation that reads and
writes tensors of its own size stays inside them. The others may not: a `SkipLayerNorm` stores to its input,
a `BiasAct` reads the bias from behind the bytes of the input, and a reshaped output may be smaller than
what is stored.
-/

namespace OnnxSim

open ElementwiseNode

namespace UnaryOp

variable (op : UnaryOp)

def walk (base : AddrType) : Strip := op.along .int op.dk op.tokensPerTile op.config.precision base

def walks : List (Strip × Operand) :=
  [(op.walk op.inputAddr, op.input), (op.walk op.outputAddr, op.output)]

variable {op}

theorem walks_of_some {o : Nat} {is : List Instruction} (ho : o < op.dk)
    (h : op.initializeInstructions o (min (op.dk - o) op.tokensPerTile) = some is) :
    Walks op.walks (op.input :: op.rest) op.output o is := by
  unfold initializeInstructions at h
  split at h
  · cases h
  obtain ⟨offs, hoffs, h⟩ := Option.bind_eq_some_iff.mp h
  obtain rfl := Option.some.inj h
  refine ⟨[op.load o offs], _, _, _, rfl, ?_, op.computes _, ?_⟩
  · intro i hi
    obtain rfl := List.mem_singleton.mp hi
    rfl
  · exact .cons ⟨op.along_addrs .int ho hoffs _, rfl⟩ (.cons ⟨op.along_addrs .int ho hoffs _, rfl⟩ .nil)

theorem inside_iff {tiles : List Tile} (h : op.initializeTiles = some tiles) :
    (∀ t ∈ tiles, t.Inside (op.input :: op.rest) op.output) ↔ ∀ w ∈ op.walks, w.1.Bounded w.2 := by
  unfold initializeTiles at h
  split at h
  · cases h
  refine op.toElementwiseNode.inside_iff h ?_ fun o ho is his => walks_of_some ho his
  unfold walks
  simp [walk, op.along_follows]

/-- With tensors that the constructors made, and byte offsets of 32 bits, a unary operation stays inside
them. -/
theorem inside_of_create {tiles : List Tile} {address : AddrType} (h : op.initializeTiles = some tiles)
    (hinput : op.input = .create op.config op.input.dims address) (hfound : op.found = none)
    (hbytes : op.dk * op.config.precision + op.tokensPerTile * op.config.precision < 2 ^ 32)
    (hreq : op.config.dramReqSize < 2 ^ 32) :
    ∀ t ∈ tiles, t.Inside (op.input :: op.rest) op.output := by
  have hsize : (Operand.create op.config op.input.dims address).size = op.dk * op.config.precision := by
    rw [Operand.create_size]
    exact wrap_of_lt (Nat.lt_of_le_of_lt (Nat.le_add_right _ _) hbytes)
  refine (inside_iff h).mpr fun w hw => ?_
  rcases List.mem_cons.mp hw with rfl | hw
  · refine Strip.bounded_of_base ⟨hbytes, hreq⟩ rfl ?_
    show op.dk * op.config.precision ≤ op.input.size
    rw [hinput, hsize]
  · obtain rfl := List.mem_singleton.mp hw
    have houtput : op.output = .create op.config op.input.dims op.outputAddress := by
      unfold output outputOf
      rw [hfound]
      rfl
    refine Strip.bounded_of_base ⟨hbytes, hreq⟩ ?_ ?_
    · show op.outputAddr = op.output.address
      unfold outputAddr node nodeOf
      rw [houtput, hfound]
      rfl
    · show op.dk * op.config.precision ≤ op.output.size
      rw [houtput]
      exact Nat.le_of_eq (Operand.create_size _ _ op.outputAddress ▸ hsize.symm)

end UnaryOp

namespace BinaryOp

variable (op : BinaryOp)

def walk (base : AddrType) : Strip :=
  op.along .unsigned op.dk op.tokensPerTile op.config.precision base

/-- A broadcast operand is read at its first address. -/
def walkB : Strip :=
  if op.broadcastB then op.same .unsigned op.dk 1 1 op.dramB else op.walk op.dramB

def walks : List (Strip × Operand) :=
  [(op.walk op.dramA, op.inputA), (op.walkB, op.inputB), (op.walk op.dramOut, op.output)]

variable {op}

theorem walkB_addrs {o : Nat} {offs : List Nat} (ho : o < op.dk)
    (h : countUp (wrap (min (op.dk - o) op.tokensPerTile * op.config.precision)) op.config.dramReqSize =
      some offs) : op.walkB.addrs (o % op.walkB.rows) = some (op.addrsB o offs) := by
  unfold walkB addrsB
  split
  · have hone : countUp (wrap 1) 1 = some [0] := countUp_of_le Nat.one_pos (by decide)
    rw [op.same_addrs .unsigned ho hone]
    simp [Counter.offset, word, addrSet]
  · exact op.along_addrs .unsigned ho h _

theorem walks_of_some {o : Nat} {is : List Instruction} (ho : o < op.dk)
    (h : op.initializeInstructions o (min (op.dk - o) op.tokensPerTile) = some is) :
    Walks op.walks (op.inputA :: op.inputB :: op.rest) op.output o is := by
  unfold initializeInstructions at h
  split at h
  · cases h
  obtain ⟨offs, hoffs, h⟩ := Option.bind_eq_some_iff.mp h
  obtain rfl := Option.some.inj h
  refine ⟨[op.loadA o offs, op.loadB o offs], [op.compute _], _, _, rfl, ?_, ?_, ?_⟩
  · simp [loadA, loadB, movin]
  · intro i hi
    obtain rfl := List.mem_singleton.mp hi
    exact ⟨(resolveOpcode_computes op.optype).1, (resolveOpcode_computes op.optype).2.1⟩
  · refine .cons ⟨op.along_addrs .unsigned ho hoffs _, rfl⟩ (.cons ⟨walkB_addrs ho hoffs, rfl⟩ ?_)
    exact .cons ⟨op.along_addrs .unsigned ho hoffs _, rfl⟩ .nil

theorem inside_iff {tiles : List Tile} (h : op.initializeTiles = some tiles) :
    (∀ t ∈ tiles, t.Inside (op.inputA :: op.inputB :: op.rest) op.output) ↔
      ∀ w ∈ op.walks, w.1.Bounded w.2 := by
  unfold initializeTiles at h
  split at h
  · cases h
  refine op.toElementwiseNode.inside_iff h ?_ fun o ho is his => walks_of_some ho his
  have hfollowsB : op.walkB.Follows op.dk op.tokensPerTile := by
    unfold walkB
    split
    · exact op.same_follows _ _ _ _ _ _
    · exact op.along_follows _ _ _ _ _
  unfold walks
  simp [walk, op.along_follows, hfollowsB]

end BinaryOp

namespace ShapeOp

variable (op : ShapeOp)

/-- The tensor of the output. -/
def output : Operand := op.outputOf (op.outputShape.getD [])

/-- The elements of the input. -/
def total : Nat := dk (op.inputShape.getD [])

def walk (base : AddrType) : Strip :=
  op.along .int op.total (op.tokensPerTile (op.inputShape.getD [])) op.config.precision base

def walks : List (Strip × Operand) :=
  [(op.walk op.inputAddr, Operand.ofId op.inputs INPUT_OPERAND), (op.walk op.outputAddr, op.output)]

variable {op}

theorem walks_of_some {o : Nat} {is : List Instruction} (ho : o < op.total)
    (h : op.initializeInstructions o
      (min (op.total - o) (op.tokensPerTile (op.inputShape.getD []))) = some is) :
    Walks op.walks op.inputs op.output o is := by
  obtain ⟨offs, hoffs, h⟩ := Option.bind_eq_some_iff.mp h
  obtain rfl := Option.some.inj h
  refine ⟨[op.load o offs], [], _, _, rfl, ?_, fun i hi => ?_, ?_⟩
  · intro i hi
    obtain rfl := List.mem_singleton.mp hi
    rfl
  · cases hi
  · exact .cons ⟨op.along_addrs .int ho hoffs _, rfl⟩ (.cons ⟨op.along_addrs .int ho hoffs _, rfl⟩ .nil)

theorem inside_iff {tiles : List Tile} (h : op.initializeTiles = some tiles) :
    (∀ t ∈ tiles, t.Inside op.inputs op.output) ↔ ∀ w ∈ op.walks, w.1.Bounded w.2 := by
  obtain ⟨shape, hshape, h⟩ := Option.bind_eq_some_iff.mp h
  obtain ⟨-, -, h⟩ := Option.bind_eq_some_iff.mp h
  split at h
  · cases h
  obtain rfl : op.inputShape.getD [] = shape := by rw [hshape]; rfl
  refine op.toElementwiseNode.inside_iff h ?_ fun o ho is his => walks_of_some ho his
  unfold walks
  simp [walk, total, op.along_follows]

end ShapeOp

namespace BiasAct

variable (op : BiasAct)

/-- The rows of all batches. -/
def rows (batchSize seq : Nat) : Nat := wrap (seq * batchSize)

def walk (batchSize seq dk perTile : Nat) (base : AddrType) : Strip :=
  op.along .mixed (rows batchSize seq) perTile (dk * op.config.precision) base

/-- The bias is read whole for every tile. -/
def walkBias (batchSize seq dk : Nat) : Strip :=
  op.same .mixed (rows batchSize seq) (dk * op.config.precision) op.config.dramReqSize
    (op.biasBase seq dk)

def walksFor (batchSize seq dk perTile : Nat) : List (Strip × Operand) :=
  [(op.walk batchSize seq dk perTile op.firstAddr, op.input), (op.walkBias batchSize seq dk, op.bias),
    (op.walk batchSize seq dk perTile op.outputAddr, op.output)]

def walks : List (Strip × Operand) :=
  (op.sizes.bind fun sizes => (op.tokensPerTile sizes.1 sizes.2.1 sizes.2.2).map
    (op.walksFor sizes.1 sizes.2.1 sizes.2.2)).getD []

variable {op}

theorem walks_eq {batchSize seq dk perTile : Nat} (hsizes : op.sizes = some (batchSize, seq, dk))
    (hper : op.tokensPerTile batchSize seq dk = some perTile) :
    op.walks = op.walksFor batchSize seq dk perTile := by
  unfold walks
  rw [hsizes, Option.bind_some]
  dsimp only
  rw [hper]
  rfl

theorem computes_compute (dk tokens : Nat) : ∀ i ∈ op.computes dk tokens, i.Computes := by
  have hopcode : op.activation.opcode ≠ .MOVIN ∧ op.activation.opcode ≠ .MOVOUT := by
    cases op.activation with
    | gelu => decide
    | relu => decide
    | swish => decide
    | softmax => decide
  intro i hi
  unfold computes at hi
  rcases List.mem_append.mp hi with hi | hi
  · rcases List.mem_cons.mp hi with rfl | hi
    · exact ⟨by simp [compute], by simp [compute]⟩
    · obtain rfl := List.mem_singleton.mp hi
      exact hopcode
  · split at hi
    · obtain rfl := List.mem_singleton.mp hi
      exact ⟨by simp [compute], by simp [compute]⟩
    · cases hi

theorem walks_of_some {batchSize seq dk perTile o : Nat} {is : List Instruction}
    (ho : o < rows batchSize seq)
    (h : op.initializeInstructions seq dk o (min (rows batchSize seq - o) perTile) = some is) :
    Walks (op.walksFor batchSize seq dk perTile) (op.input :: op.bias :: op.rest) op.output o is := by
  unfold initializeInstructions at h
  split at h
  · cases h
  obtain ⟨offs, hoffs, h⟩ := Option.bind_eq_some_iff.mp h
  obtain ⟨biasOffs, hbias, h⟩ := Option.bind_eq_some_iff.mp h
  obtain rfl := Option.some.inj h
  refine ⟨[op.load dk o offs, op.loadBias seq dk _ biasOffs], _, _, _, rfl, ?_, computes_compute _ _, ?_⟩
  · simp [load, loadBias, movin]
  · unfold TokenOp.chunkOffs at hoffs hbias
    rw [Nat.mul_assoc] at hoffs
    have haddrs := op.along_addrs .mixed ho hoffs
    rw [← Nat.mul_assoc o] at haddrs
    refine .cons ⟨haddrs _, rfl⟩ (.cons ⟨op.same_addrs .mixed ho hbias, rfl⟩ ?_)
    exact .cons ⟨haddrs _, rfl⟩ .nil

theorem inside_iff {tiles : List Tile} (h : op.initializeTiles = some tiles) :
    (∀ t ∈ tiles, t.Inside (op.input :: op.bias :: op.rest) op.output) ↔
      ∀ w ∈ op.walks, w.1.Bounded w.2 := by
  obtain ⟨⟨batchSize, seq, dk⟩, hsizes, h⟩ := Option.bind_eq_some_iff.mp h
  obtain ⟨perTile, hper, h⟩ := Option.bind_eq_some_iff.mp h
  rw [walks_eq hsizes hper]
  refine op.toElementwiseNode.inside_iff h ?_ fun o ho is his => walks_of_some ho his
  unfold walksFor walkBias walk rows
  simp [op.along_follows, op.same_follows]

/-- A bias that is no longer than the rows of a batch is not read at all. -/
theorem not_bounded_walkBias {batchSize seq dk : Nat} (hlt : seq * dk * op.config.precision < 2 ^ 32)
    (hshort : op.bias.size ≤ seq * dk * op.config.precision)
    (hnarrow : (op.walkBias batchSize seq dk).Narrow) (hbytes : (op.walkBias batchSize seq dk).bytes ≠ 0) :
    ¬ (op.walkBias batchSize seq dk).Bounded op.bias := by
  have hdistance : ((op.walkBias batchSize seq dk).base - op.bias.address).toNat =
      seq * dk * op.config.precision := by
    show (op.bias.address + word (seq * dk * op.config.precision) - op.bias.address).toNat = _
    unfold word
    rw [add_sub_cancel_left, BitVec.toNat_ofNat, Nat.mod_eq_of_lt hlt, Nat.mod_eq_of_lt (by omega)]
  unfold Strip.Bounded
  rw [if_pos hnarrow, or_iff_right hbytes, hdistance]
  omega

end BiasAct

namespace SkipLayerNorm

variable (op : SkipLayerNorm)

def walk (batchSize seq dk perTile : Nat) (base : AddrType) : Strip :=
  op.along .mixed (wrap (seq * batchSize)) perTile (dk * op.config.precision) base

/-- The strip of the output is that of the input. -/
def walksFor (batchSize seq dk perTile : Nat) : List (Strip × Operand) :=
  [(op.walk batchSize seq dk perTile op.inputAddr, op.input),
    (op.walk batchSize seq dk perTile op.skipAddr, op.skip),
    (op.walk batchSize seq dk perTile op.inputAddr, op.output)]

def walks : List (Strip × Operand) :=
  (op.sizes.bind fun sizes => (op.tokensPerTile sizes.1 sizes.2.1 sizes.2.2).map
    (op.walksFor sizes.1 sizes.2.1 sizes.2.2)).getD []

variable {op}

theorem walks_eq {batchSize seq dk perTile : Nat} (hsizes : op.sizes = some (batchSize, seq, dk))
    (hper : op.tokensPerTile batchSize seq dk = some perTile) :
    op.walks = op.walksFor batchSize seq dk perTile := by
  unfold walks
  rw [hsizes, Option.bind_some]
  dsimp only
  rw [hper]
  rfl

theorem computes_compute (dk tokens : Nat) : ∀ i ∈ op.computes dk tokens, i.Computes := by
  intro i hi
  unfold computes at hi
  rcases List.mem_cons.mp hi with rfl | hi
  · exact ⟨by simp, by simp⟩
  · obtain rfl := List.mem_singleton.mp hi
    exact ⟨by simp, by simp⟩

theorem walks_of_some {batchSize seq dk perTile o : Nat} {is : List Instruction}
    (ho : o < wrap (seq * batchSize))
    (h : op.initializeInstructions dk o (min (wrap (seq * batchSize) - o) perTile) = some is) :
    Walks (op.walksFor batchSize seq dk perTile) (op.input :: op.skip :: op.rest) op.output o is := by
  obtain ⟨offs, hoffs, h⟩ := Option.bind_eq_some_iff.mp h
  obtain rfl := Option.some.inj h
  refine ⟨[op.load dk o offs, op.loadSkip dk o _ offs], _, _, _, rfl, ?_, computes_compute _ _, ?_⟩
  · simp [load, loadSkip, movin]
  · unfold TokenOp.chunkOffs at hoffs
    rw [Nat.mul_assoc] at hoffs
    have haddrs := op.along_addrs .mixed ho hoffs
    rw [← Nat.mul_assoc o] at haddrs
    exact .cons ⟨haddrs _, rfl⟩ (.cons ⟨haddrs _, rfl⟩ (.cons ⟨haddrs _, rfl⟩ .nil))

theorem inside_iff {tiles : List Tile} (h : op.initializeTiles = some tiles) :
    (∀ t ∈ tiles, t.Inside (op.input :: op.skip :: op.rest) op.output) ↔
      ∀ w ∈ op.walks, w.1.Bounded w.2 := by
  unfold initializeTiles at h
  split at h
  · cases h
  obtain ⟨⟨batchSize, seq, dk⟩, hsizes, h⟩ := Option.bind_eq_some_iff.mp h
  obtain ⟨perTile, hper, h⟩ := Option.bind_eq_some_iff.mp h
  rw [walks_eq hsizes hper]
  refine op.toElementwiseNode.inside_iff h ?_ fun o ho is his => walks_of_some ho his
  unfold walksFor walk
  simp [op.along_follows]

/-- A tile stores to the addresses of the input that it loads. -/
theorem store_eq_load {tiles : List Tile} (h : op.initializeTiles = some tiles) {t : Tile} (ht : t ∈ tiles) :
    ∃ load ∈ t.instructions, ∃ store ∈ t.instructions, load.opcode = .MOVIN ∧
      load.operandId = INPUT_OPERAND ∧ store.opcode = .MOVOUT ∧ store.srcAddrs = load.srcAddrs := by
  unfold initializeTiles at h
  split at h
  · cases h
  obtain ⟨⟨batchSize, seq, dk⟩, -, h⟩ := Option.bind_eq_some_iff.mp h
  obtain ⟨perTile, -, h⟩ := Option.bind_eq_some_iff.mp h
  obtain ⟨offsets, -, -, hmem⟩ := op.mem_of_tileLoop h
  obtain ⟨o, -, is, his, rfl⟩ := (hmem t).mp ht
  obtain ⟨offs, -, his⟩ := Option.bind_eq_some_iff.mp his
  obtain rfl := Option.some.inj his
  refine ⟨op.load dk o offs, ?_, op.store dk o offs, ?_, rfl, rfl, rfl, rfl⟩
  · exact List.mem_append_left _ (List.mem_append_left _ List.mem_cons_self)
  · exact List.mem_append_right _ List.mem_cons_self

/-- So with an output apart from the input, no tile that stores anything stays inside. -/
theorem not_inside {tiles : List Tile} (h : op.initializeTiles = some tiles)
    (hapart : Disjoint op.input.region op.output.region) {t : Tile} (ht : t ∈ tiles)
    (hstores : ∀ i ∈ t.instructions, i.opcode = .MOVOUT → i.srcAddrs ≠ []) :
    ¬ t.Inside (op.input :: op.skip :: op.rest) op.output := by
  intro hinside
  obtain ⟨load, hload, store, hstore, hmovin, hid, hmovout, hsame⟩ := store_eq_load h ht
  obtain ⟨a, ha⟩ := List.exists_mem_of_ne_nil _ (hstores store hstore hmovout)
  have hin := hinside.loads load hload hmovin a (hsame ▸ ha)
  rw [hid] at hin
  exact Set.disjoint_left.mp hapart hin (hinside.stores store hstore hmovout a ha)

end SkipLayerNorm

/-- The element-wise operations. -/
inductive ElementwiseOp
  | unary (op : UnaryOp)
  | binary (op : BinaryOp)
  | shape (op : ShapeOp)
  | biasAct (op : BiasAct)
  | skipLayerNorm (op : SkipLayerNorm)

namespace ElementwiseOp

def initializeTiles : ElementwiseOp → Option (List Tile)
  | .unary op => op.initializeTiles
  | .binary op => op.initializeTiles
  | .shape op => op.initializeTiles
  | .biasAct op => op.initializeTiles
  | .skipLayerNorm op => op.initializeTiles

def inputs : ElementwiseOp → List Operand
  | .unary op => op.input :: op.rest
  | .binary op => op.inputA :: op.inputB :: op.rest
  | .shape op => op.inputs
  | .biasAct op => op.input :: op.bias :: op.rest
  | .skipLayerNorm op => op.input :: op.skip :: op.rest

def output : ElementwiseOp → Operand
  | .unary op => op.output
  | .binary op => op.output
  | .shape op => op.output
  | .biasAct op => op.output
  | .skipLayerNorm op => op.output

/-- The strips over which the tiles walk, with the tensors they are in. -/
def walks : ElementwiseOp → List (Strip × Operand)
  | .unary op => op.walks
  | .binary op => op.walks
  | .shape op => op.walks
  | .biasAct op => op.walks
  | .skipLayerNorm op => op.walks

/-- Every load of every tile is of addresses in its operand, and every store of addresses in the output,
exactly if the last access of each strip is in its tensor. -/
theorem accesses_inside_iff (op : ElementwiseOp) {tiles : List Tile}
    (h : op.initializeTiles = some tiles) :
    (∀ t ∈ tiles, t.Inside op.inputs op.output) ↔ ∀ w ∈ op.walks, w.1.Bounded w.2 := by
  cases op with
  | unary op => exact UnaryOp.inside_iff h
  | binary op => exact BinaryOp.inside_iff h
  | shape op => exact ShapeOp.inside_iff h
  | biasAct op => exact BiasAct.inside_iff h
  | skipLayerNorm op => exact SkipLayerNorm.inside_iff h

/-- Two rows of eight elements. -/
def rowConfig : SimulationConfig :=
  { numCores := 1, coreConfig := fun _ => { spadSize := 1 }, dramChannels := 1, dramReqSize := 32 }

/-- A normalisation of two rows of eight elements. -/
def norm : SkipLayerNorm where
  config := rowConfig
  id := 0
  outputAddress := 4096
  fromNode := true
  input := .create rowConfig [1, 2, 8] 0
  skip := .create rowConfig [1, 2, 8] 1024
  rest := [.create rowConfig [8] 2048, .create rowConfig [8] 3072]

/-- The normalisation stores its first row to the address of its input, and not to its output. -/
theorem norm_not_inside : ¬ ∀ (op : ElementwiseOp) (tiles : List Tile),
    op.initializeTiles = some tiles → ∀ t ∈ tiles, t.Inside op.inputs op.output := by
  intro hall
  have hsome : norm.initializeTiles.isSome := by decide
  obtain ⟨tiles, htiles⟩ := Option.isSome_iff_exists.mp hsome
  have hinside : ∀ t ∈ tiles, t.Inside (norm.input :: norm.skip :: norm.rest) norm.output :=
    hall (.skipLayerNorm norm) tiles htiles
  have hwalks : norm.walks = norm.walksFor 1 2 8 1 := SkipLayerNorm.walks_eq (by decide) (by decide)
  have hbounded := (SkipLayerNorm.inside_iff htiles).mp hinside
    (norm.walk 1 2 8 1 norm.inputAddr, norm.output) (by simp [hwalks, SkipLayerNorm.walksFor])
  unfold Strip.Bounded at hbounded
  rw [if_pos (by decide)] at hbounded
  revert hbounded
  decide

/-- The negation of two rows of eight elements. -/
def negation : UnaryOp where
  config := rowConfig
  id := 0
  outputAddress := 4096
  optype := "Neg"
  input := .create rowConfig [2, 8] 0

theorem accesses_inside_iff_negation : ∃ tiles, (unary negation).initializeTiles = some tiles ∧
    ((∀ t ∈ tiles, t.Inside (unary negation).inputs (unary negation).output) ↔
      ∀ w ∈ (unary negation).walks, w.1.Bounded w.2) := by
  have hsome : negation.initializeTiles.isSome := by decide
  obtain ⟨tiles, htiles⟩ := Option.isSome_iff_exists.mp hsome
  exact ⟨tiles, htiles, accesses_inside_iff (unary negation) htiles⟩

end ElementwiseOp

end OnnxSim
