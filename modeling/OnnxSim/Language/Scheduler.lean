import Mathlib.Algebra.Ring.Nat
import Mathlib.Data.List.AList

/-!
# The language schedulers

`LangScheduler` of `LanguageScheduler.cc` and `IterLevelScheduler`, with the part of `LanguageModel`
and `KVCacheConcat` that says how long the caches of a batch are. A cache tensor is given by its
dimensions. Lengths are natural numbers: the rows of a trace whose `int` sums do not overflow stay
below the `uint32_t` range. The estimate of the memory use, which can end the program, is left out.
The use of a null pointer is `none`.
-/

namespace OnnxSim

/-- `scheduler`: `simple` is `LangScheduler`, `iter` is `IterLevelScheduler`. -/
inductive LangSchedulerType
  | simple
  | iter
  deriving Repr, DecidableEq

structure LangConfig where
  type : LangSchedulerType := .simple
  numSimLayers : Nat
  cacheDim : Nat
  maxBatchSize : Nat := 0

/-- A row of the request trace. -/
structure TraceRow where
  time : Nat
  promptLength : Nat
  targetLength : Nat
  cachedLen : Nat
  deriving Repr, DecidableEq

structure LangRequest where
  requestId : Nat
  running : Bool := false
  genPhase : Bool := false
  requestTime : Nat
  startTime : Nat := 0
  finishTime : Nat := 0
  promptLength : Nat
  currentLength : Nat
  targetLength : Nat
  /-- The dimensions of the key cache of each layer. -/
  keyCache : List (List Nat) := []
  valueCache : List (List Nat) := []
  deriving Repr, DecidableEq

/-- What a model is told of a request: with the caches as they are when the model is made. -/
structure LangInput where
  requestId : Nat
  seqLength : Nat
  contextLength : Nat
  keyCache : List (List Nat)
  valueCache : List (List Nat)
  deriving Repr, DecidableEq

/-- A `LanguageModel` made by `generate_model`. -/
structure LangModel where
  id : Nat
  reqs : List LangInput
  deriving Repr, DecidableEq

/-! ## The caches of a model -/

/-- `dims[0] = dims[0] + tokens`. -/
def growDims (dims : List Nat) (tokens : Nat) : List Nat :=
  match dims with
  | [] => []
  | d :: rest => (d + tokens) :: rest

/-- A `KVCacheConcat`: the lengths of its batches and the dimensions of their caches. -/
structure KVCacheConcat where
  inputTokenLengths : List Nat
  keyCache : List (List Nat)
  valueCache : List (List Nat)

/-- The dimensions that `initialize_tiles` gives to the key outputs. -/
def KVCacheConcat.keyOutputs (op : KVCacheConcat) : List (List Nat) :=
  List.zipWith growDims op.keyCache op.inputTokenLengths

def KVCacheConcat.valueOutputs (op : KVCacheConcat) : List (List Nat) :=
  List.zipWith growDims op.valueCache op.inputTokenLengths

/-- The `KVCacheConcat` that `initialize_model` makes for layer `l`. -/
def LangModel.kvCacheConcat (m : LangModel) (l : Nat) : KVCacheConcat where
  inputTokenLengths := m.reqs.map (·.seqLength)
  keyCache := m.reqs.map fun r => r.keyCache.getD l []
  valueCache := m.reqs.map fun r => r.valueCache.getD l []

/-! ## The scheduler -/

structure LangScheduler where
  requestQueue : List LangRequest
  /-- `_active_requests`, in the order of the identifiers. -/
  activeRequests : List LangRequest := []
  requestsInModel : AList (fun _ : Nat => List Nat) := ∅
  modelQueue : List LangModel := []
  cycles : Nat := 0
  /-- What `generate_id` returns next. -/
  nextId : Nat := 0
  /-- The requests that have left `_active_requests`. No function reads this field. -/
  completed : List LangRequest := []

namespace LangScheduler

/-- The loop of `parse_request_trace` from row `id` on, after `timeOffset` cycles. -/
def parseRows (id timeOffset : Nat) : List TraceRow → List LangRequest
  | [] => []
  | row :: rows =>
    { requestId := id
      requestTime := timeOffset + row.time
      promptLength := row.promptLength
      targetLength := row.cachedLen + row.promptLength + row.targetLength
      currentLength := row.cachedLen } :: parseRows (id + 1) (timeOffset + row.time) rows

/-- `parse_request_trace`. -/
def parseRequestTrace (trace : List TraceRow) : List LangRequest := parseRows 0 0 trace

def init (trace : List TraceRow) : LangScheduler where
  requestQueue := parseRequestTrace trace

variable (config : LangConfig)

/-- `init_request`. -/
def initRequest (s : LangScheduler) (r : LangRequest) : LangRequest :=
  let caches := List.replicate config.numSimLayers [r.currentLength, config.cacheDim]
  { r with
    startTime := s.cycles
    genPhase := false
    running := false
    keyCache := caches
    valueCache := caches }

/-- `_active_requests[id]`. -/
def request (s : LangScheduler) (id : Nat) : Option LangRequest :=
  s.activeRequests.find? (·.requestId == id)

/-- `_active_requests[r.request_id] = r`. -/
def putRequest (rs : List LangRequest) (r : LangRequest) : List LangRequest :=
  rs.filter (·.requestId < r.requestId) ++ r :: rs.filter (r.requestId < ·.requestId)

/-- The loop that moves requests from the queue to the active ones. -/
def activate (s : LangScheduler) : List LangRequest → LangScheduler
  | [] => { s with requestQueue := [] }
  | r :: rest =>
    if r.requestTime ≤ s.cycles then
      let active := putRequest s.activeRequests (initRequest config s r)
      let s := { s with activeRequests := active, requestQueue := rest }
      if config.maxBatchSize > 0 ∧ active.length ≥ config.maxBatchSize then s
      else activate s rest
    else { s with requestQueue := r :: rest }

/-- Whether a cycle activates requests. -/
def activates (s : LangScheduler) : Bool :=
  match config.type with
  | .simple => s.activeRequests.isEmpty
  | .iter => decide (s.activeRequests.length ≤ config.maxBatchSize ∨ config.maxBatchSize = 0)

def inputOf (r : LangRequest) : LangInput where
  requestId := r.requestId
  seqLength := if r.genPhase then 1 else r.promptLength
  contextLength := r.currentLength
  keyCache := r.keyCache
  valueCache := r.valueCache

/-- The first loop of `init_inputs_and_model`: the requests that are not running, as many as a batch
may hold. -/
def batch (s : LangScheduler) : List LangRequest :=
  let waiting := s.activeRequests.filter fun r => !r.running
  if config.maxBatchSize > 0 then waiting.take config.maxBatchSize else waiting

/-- `init_inputs_and_model`. -/
def initInputsAndModel (s : LangScheduler) : LangScheduler :=
  let batch := s.batch config
  if batch = [] then s
  else
    { s with
      nextId := s.nextId + 1
      activeRequests := s.activeRequests.map fun r =>
        if r.requestId ∈ batch.map (·.requestId) then { r with running := true } else r
      requestsInModel := s.requestsInModel.insert s.nextId
        ((s.requestsInModel.lookup s.nextId).getD [] ++ batch.map (·.requestId))
      modelQueue := s.modelQueue ++ [{ id := s.nextId, reqs := batch.map inputOf }] }

/-- `LangScheduler::cycle` and `IterLevelScheduler::cycle`. -/
def cycle (s : LangScheduler) : LangScheduler :=
  let s := { s with cycles := s.cycles + 1 }
  let s := if s.activates config then s.activate config s.requestQueue else s
  if s.modelQueue.isEmpty ∧ s.requestsInModel.entries.isEmpty then s.initInputsAndModel config else s

/-- `can_schedule_model` and `pop_model`. -/
def popModel (s : LangScheduler) : Option (LangModel × LangScheduler) :=
  match s.modelQueue with
  | [] => none
  | m :: rest => some (m, { s with modelQueue := rest })

/-- The request after one of its models has finished. -/
def advance (r : LangRequest) : LangRequest :=
  let length := if r.genPhase then r.currentLength + 1 else r.currentLength + (r.promptLength + 1)
  let resize := List.map fun _ => [length, config.cacheDim]
  { r with
    genPhase := true
    currentLength := length
    keyCache := resize r.keyCache
    valueCache := resize r.valueCache
    running := false }

/-- The body of the loop of `finish_model`. -/
def finishRequest (s : LangScheduler) (id : Nat) : Option LangScheduler := do
  let r ← s.request id
  let r := advance config r
  if r.currentLength ≥ r.targetLength then
    some { s with
      activeRequests := s.activeRequests.filter (·.requestId ≠ id)
      completed := s.completed ++ [{ r with finishTime := s.cycles }] }
  else some { s with activeRequests := s.activeRequests.map fun q => if q.requestId = id then r else q }

/-- `finish_model`. -/
def finishModel (s : LangScheduler) (modelId : Nat) : Option LangScheduler := do
  let s' ← ((s.requestsInModel.lookup modelId).getD []).foldlM (finishRequest config) s
  some { s' with requestsInModel := s'.requestsInModel.erase modelId }

end LangScheduler

/-! ## Runs -/

/-- A language scheduler, the models that have been popped and not finished, and those that have
finished. -/
structure LangSystem where
  lang : LangScheduler
  inFlight : List LangModel := []
  finished : List LangModel := []

namespace LangSystem

inductive Act
  | cycle
  | popModel
  | finishModel (i : Nat)

def init (trace : List TraceRow) : LangSystem := { lang := LangScheduler.init trace }

def step (config : LangConfig) (s : LangSystem) : Act → Option LangSystem
  | .cycle => some { s with lang := s.lang.cycle config }
  | .popModel => do
    let (m, lang) ← s.lang.popModel
    some { s with lang := lang, inFlight := s.inFlight ++ [m] }
  | .finishModel i => do
    let m ← s.inFlight[i]?
    let lang ← s.lang.finishModel config m.id
    some { lang := lang, inFlight := s.inFlight.eraseIdx i, finished := s.finished ++ [m] }

end LangSystem

end OnnxSim
