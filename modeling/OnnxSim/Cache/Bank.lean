import OnnxSim.Cache.Set

/-!
# An L2 bank

`Cache` of `Cache.h` and `Cache.cc`: the sets, the pending objects with their slots, the four queues
and the block pools. The bank's counters of hits and misses are left out: nothing reads them.
-/

namespace OnnxSim

def BLOCK_SIZE : Nat := 128
def BLOCK_BITS : Nat := 7
def SET_BITS : Nat := 15
def MAX_MISS_Q_DEPTH : Nat := 16834
def MAX_PENDING_OBJS : Nat := 2048
def MAX_IN_PER_CYCLE : Nat := 16
def BLOCK_POOL_SIZE : Nat := MAX_MISS_Q_DEPTH * 4 + MAX_PENDING_OBJS * 32 + 8192
def WB_POOL_SIZE : Nat := MAX_PENDING_OBJS * 2 + 4096
def LARGE_OBJ_THRESHOLD : Nat := 384 * 1024
def HBM_BYTES_PER_CYCLE : Nat := 16
def HBM_MIN_LATENCY_CYCLES : Nat := 80

/-- The difference of two `uint32_t`. -/
def sub32 (a b : Nat) : Nat := (a + 2 ^ 32 - b % 2 ^ 32) % 2 ^ 32

theorem sub32_of_le {a b : Nat} (hb : b ≤ a) (ha : a < 2 ^ 32) : sub32 a b = a - b := by
  unfold sub32
  omega

structure PendingObject where
  totalBlocks : Nat := 0
  issuedBlocks : Nat := 0
  returnedBlocks : Nat := 0
  baseAddr : AddrType := 0
  objSize : Nat := 0
  originalId : Nat := 0
  isWrite : Bool := false
  active : Bool := false
  coreId : BitVec 32 := -1
  waitingReqs : List MemoryAccess := []
  activeSlotsIdx : Nat := 0
  burstCountdown : Nat := 0
  isBurstMode : Bool := false
  deriving Repr

/-- `PendingObject::reset` clears everything but the stored index. -/
def PendingObject.reset (po : PendingObject) : PendingObject :=
  { activeSlotsIdx := po.activeSlotsIdx }

structure Cache where
  sets : Nat → CacheSet := fun _ => {}
  pending : Nat → PendingObject := fun _ => {}
  activeSlots : List Nat := []
  activePending : Nat := 0
  inQ : List MemoryAccess := []
  missQ : List MemoryAccess := []
  wbQ : List MemoryAccess := []
  outQ : List MemoryAccess := []
  /-- The free list of `_pool`, the back of the vector first. -/
  poolFree : List Nat := (List.range BLOCK_POOL_SIZE).reverse
  wbPoolFree : List Nat := (List.range WB_POOL_SIZE).reverse
  /-- How many `MemoryAccess` objects the pools have taken from the heap so far. -/
  fallbacks : Nat := 0
  /-- The pointers `BlockPool::release` has passed to `delete`. -/
  deleted : List MemoryPtr := []
  /-- `_free_slots`, the back of the vector first. -/
  freeSlots : List Nat := List.range MAX_PENDING_OBJS
  idToSlot : Nat → Option Nat := fun _ => none

namespace Cache

/-- The bank as its constructor leaves it. -/
def init : Cache := {}

def setIndex (a : AddrType) : Nat := (a >>> BLOCK_BITS).toNat % 2 ^ SET_BITS

def tagBits (a : AddrType) : AddrType := a >>> (BLOCK_BITS + SET_BITS)

def blockBase (a : AddrType) : AddrType := a &&& ~~~(BitVec.ofNat 64 (BLOCK_SIZE - 1))

/-- The way of the block of `addr` in its set, `NUM_WAYS` when it is not resident. -/
def findWay (c : Cache) (addr : AddrType) : Nat := (c.sets (setIndex addr)).findTag (tagBits addr)

def checkHit (c : Cache) (addr : AddrType) : Bool := c.findWay addr < NUM_WAYS

/-! ## Queues -/

def pushRequest (c : Cache) (req : MemoryAccess) : Cache := { c with inQ := c.inQ ++ [req] }

def popMissRequest (c : Cache) : Cache := { c with missQ := c.missQ.tail }

def popWbRequest (c : Cache) : Cache := { c with wbQ := c.wbQ.tail }

def popResponse (c : Cache) : Cache := { c with outQ := c.outQ.tail }

/-! ## Block pools -/

/-- `_pool.alloc()`. -/
def poolAlloc (c : Cache) : MemoryPtr × Cache :=
  match c.poolFree with
  | idx :: rest => (.pool idx, { c with poolFree := rest })
  | [] => (.fallback c.fallbacks, { c with fallbacks := c.fallbacks + 1 })

/-- `_wb_pool.alloc()`. -/
def wbPoolAlloc (c : Cache) : MemoryPtr × Cache :=
  match c.wbPoolFree with
  | idx :: rest => (.wbPool idx, { c with wbPoolFree := rest })
  | [] => (.fallback c.fallbacks, { c with fallbacks := c.fallbacks + 1 })

/-- `_pool.release(p)`: what does not lie in the pool's storage is deleted. -/
def poolRelease (c : Cache) : MemoryPtr → Cache
  | .pool idx => { c with poolFree := idx :: c.poolFree }
  | p => { c with deleted := c.deleted ++ [p] }

/-! ## Pending slots -/

def findPendingSlot (c : Cache) (objId : Nat) : Nat := (c.idToSlot objId).getD MAX_PENDING_OBJS

def allocPendingSlot (c : Cache) : Nat × Cache :=
  match c.freeSlots with
  | slot :: rest => (slot, { c with freeSlots := rest })
  | [] => (MAX_PENDING_OBJS, c)

def setPending (c : Cache) (slot : Nat) (po : PendingObject) : Cache :=
  { c with pending := Function.update c.pending slot po }

def freePendingSlot (c : Cache) (slot : Nat) : Cache :=
  let c := { c with idToSlot := Function.update c.idToSlot (c.pending slot).originalId none }
  let c := c.setPending slot (c.pending slot).reset
  let c := { c with freeSlots := slot :: c.freeSlots }
  let idx := (c.pending slot).activeSlotsIdx
  let c :=
    if idx < c.activeSlots.length then
      let moved := c.activeSlots.getLastD 0
      { c.setPending moved { c.pending moved with activeSlotsIdx := idx } with
        activeSlots := (c.activeSlots.set idx moved).dropLast }
    else c
  { c with activePending := c.activePending - 1 }

def computeBurstCycles (objSizeBytes : Nat) : Nat :=
  HBM_MIN_LATENCY_CYCLES + (objSizeBytes + HBM_BYTES_PER_CYCLE - 1) % 2 ^ 32 / HBM_BYTES_PER_CYCLE

/-! ## Filling and evicting lines -/

def setSet (c : Cache) (si : Nat) (s : CacheSet) : Cache :=
  { c with sets := Function.update c.sets si s }

/-- The address `writeback` rebuilds from a tag and a set index. -/
def wbAddr (tag : BitVec 42) (si : Nat) : AddrType :=
  (tag.setWidth 64 <<< (BLOCK_BITS + SET_BITS)) ||| (BitVec.ofNat 64 si <<< BLOCK_BITS)

def writeback (c : Cache) (si w : Nat) : Cache :=
  let e := (c.sets si).ways w
  let c :=
    if e.valid && e.dirty then
      let (ptr, c) := c.wbPoolAlloc
      let wb : MemoryAccess :=
        { ptr, id := 0, dramAddress := wbAddr e.tag si, size := BLOCK_SIZE,
          objectSize := BLOCK_SIZE, write := true, request := true, coreId := e.getCore,
          bufferId := 0 }
      { c with wbQ := c.wbQ ++ [wb] }
    else c
  c.setSet si ((c.sets si).setWay w .reset)

def fill (c : Cache) (baddr : AddrType) (isWrite : Bool) (coreId : BitVec 32) : Cache :=
  let si := setIndex baddr
  let tag := tagBits baddr
  let s := c.sets si
  let w := s.findTag tag
  if w < NUM_WAYS then
    let s := if isWrite then s.setWay w { s.ways w with dirty := true } else s
    c.setSet si (s.touch w)
  else
    let (w, c) :=
      if s.freeWay = NUM_WAYS then
        let w := s.lruWay
        let c := c.writeback si w
        (w, c.setSet si ((c.sets si).clearValid w))
      else (s.freeWay, c)
    let s := c.sets si
    let e : CacheEntry := { s.ways w with tag := tag.setWidth 42, valid := true, dirty := isWrite }
    c.setSet si (((s.setWay w (e.setCore coreId)).setValid w).touch w)

/-! ## Issuing blocks -/

/-- One turn of the loop of `issue_blocks`. -/
def issueBlock (slot : Nat) (c : Cache) : Cache :=
  let po := c.pending slot
  let (ptr, c) := c.poolAlloc
  let sub : MemoryAccess :=
    { ptr, id := slot,
      dramAddress := po.baseAddr + BitVec.ofNat 64 (po.issuedBlocks * BLOCK_SIZE),
      size := BLOCK_SIZE, objectSize := BLOCK_SIZE, write := po.isWrite, request := true,
      coreId := po.coreId, bufferId := 0 }
  let c := { c with missQ := c.missQ ++ [sub] }
  c.setPending slot { po with issuedBlocks := po.issuedBlocks + 1 }

/-- How many blocks `issue_blocks` issues; the subtractions are those of `uint32_t`. -/
def toIssue (c : Cache) (slot : Nat) : Nat :=
  let po := c.pending slot
  min (sub32 MAX_MISS_Q_DEPTH c.missQ.length) (sub32 po.totalBlocks po.issuedBlocks)

def issueBlocks (c : Cache) (slot : Nat) : Cache := (issueBlock slot)^[c.toIssue slot] c

/-! ## Responses of the memory -/

def pushMemoryResponse (c : Cache) (resp : MemoryAccess) : Cache :=
  let slot := resp.id
  if MAX_PENDING_OBJS ≤ slot || !(c.pending slot).active then
    -- a slot that was freed, or a writeback completion (their id is 0)
    c.poolRelease resp.ptr
  else
    let c := c.fill (blockBase resp.dramAddress) (c.pending slot).isWrite (c.pending slot).coreId
    let po := c.pending slot
    let c := c.setPending slot { po with returnedBlocks := po.returnedBlocks + 1 }
    let po := c.pending slot
    let c :=
      if po.issuedBlocks < po.totalBlocks && c.missQ.length < MAX_MISS_Q_DEPTH then
        c.issueBlocks slot
      else c
    let po := c.pending slot
    let c :=
      if po.totalBlocks ≤ po.returnedBlocks then
        { c with outQ := c.outQ ++ po.waitingReqs.map MemoryAccess.answered }.freePendingSlot slot
      else c
    c.poolRelease resp.ptr

/-! ## Requests of the cores -/

/-- The hit path of `process_one_request`. -/
def answerHit (c : Cache) (req : MemoryAccess) : Cache :=
  let si := setIndex req.dramAddress
  let s := c.sets si
  let w := c.findWay req.dramAddress
  let s := if req.write then s.setWay w { s.ways w with dirty := true } else s
  let c := c.setSet si (s.touch w)
  { c with outQ := c.outQ ++ [req.answered] }

/-- `(object_size + BLOCK_SIZE - 1) / BLOCK_SIZE` in `uint32_t`. -/
def nBlocks (objectSize : Nat) : Nat := (objectSize + BLOCK_SIZE - 1) % 2 ^ 32 / BLOCK_SIZE

/-- The slot of a new miss is taken and set up for `req`. -/
def openSlot (c : Cache) (slot : Nat) (req : MemoryAccess) : Cache :=
  let po : PendingObject :=
    { c.pending slot with
      totalBlocks := nBlocks req.objectSize, issuedBlocks := 0, returnedBlocks := 0,
      baseAddr := blockBase req.dramAddress, objSize := req.objectSize, isWrite := req.write,
      coreId := req.coreId, originalId := req.id, active := true, waitingReqs := [req],
      activeSlotsIdx := c.activeSlots.length }
  { c.setPending slot po with
    activeSlots := c.activeSlots ++ [slot]
    idToSlot := Function.update c.idToSlot req.id (some slot)
    activePending := c.activePending + 1 }

/-- The large-object path: the slot is marked as fully issued, and one access stands for the whole
object. -/
def issueBurst (c : Cache) (slot : Nat) (req : MemoryAccess) : Cache :=
  let po := c.pending slot
  let po := { po with
    isBurstMode := true, burstCountdown := computeBurstCycles req.objectSize,
    issuedBlocks := po.totalBlocks }
  let (ptr, c) := (c.setPending slot po).poolAlloc
  let burst : MemoryAccess :=
    { ptr, id := slot, dramAddress := blockBase req.dramAddress, size := req.objectSize,
      objectSize := req.objectSize, write := po.isWrite, request := true, coreId := po.coreId,
      bufferId := 0 }
  { c with missQ := c.missQ ++ [burst] }

def processOneRequest (c : Cache) : Bool × Cache :=
  match c.inQ with
  | [] => (false, c)
  | req :: rest =>
    let c := { c with inQ := rest }
    if c.checkHit req.dramAddress then (true, c.answerHit req)
    else
      let slot := c.findPendingSlot req.id
      if slot < MAX_PENDING_OBJS then
        let po := c.pending slot
        (true, c.setPending slot { po with waitingReqs := po.waitingReqs ++ [req] })
      else
        let (slot, c) := c.allocPendingSlot
        if slot = MAX_PENDING_OBJS then (true, { c with inQ := req :: c.inQ })
        else
          let c := c.openSlot slot req
          if LARGE_OBJ_THRESHOLD ≤ req.objectSize then (true, c.issueBurst slot req)
          else
            let c := c.setPending slot { c.pending slot with isBurstMode := false }
            (true, c.issueBlocks slot)

/-! ## One cycle -/

/-- One turn of the loop that goes on issuing the blocks of objects the miss queue had no room
for. -/
def continueIssue (c : Cache) (slot : Nat) : Cache :=
  if MAX_MISS_Q_DEPTH ≤ c.missQ.length then c
  else if (c.pending slot).active && (c.pending slot).issuedBlocks < (c.pending slot).totalBlocks then
    c.issueBlocks slot
  else c

def continueIssues (c : Cache) : Cache :=
  if 0 < c.activePending && c.missQ.length < MAX_MISS_Q_DEPTH then
    c.activeSlots.foldl continueIssue c
  else c

/-- The input loop with room for new objects, at most `n` more requests. -/
def processMany : Nat → Cache → Cache
  | 0, c => c
  | n + 1, c =>
    let (more, c) := c.processOneRequest
    if more then processMany n c else c

/-- The head of the input queue needs no new slot. -/
def headServed (c : Cache) : Bool :=
  match c.inQ with
  | [] => false
  | req :: _ => c.checkHit req.dramAddress || c.findPendingSlot req.id < MAX_PENDING_OBJS

/-- The input loop with the slots nearly used up. -/
def processServed : Nat → Cache → Cache
  | 0, c => c
  | n + 1, c => if c.headServed then processServed n c.processOneRequest.2 else c

def processRequests (c : Cache) : Cache :=
  if c.activePending < MAX_PENDING_OBJS - 16 then processMany MAX_IN_PER_CYCLE c
  else processServed MAX_IN_PER_CYCLE c

def cycle (c : Cache) : Cache := c.continueIssues.processRequests

end Cache

end OnnxSim
