import OS2021.Fs.Cache

/-! The write-ahead log and the bitmap allocator (`fs/cache.c`, second half).

A routine that takes `log.lock` more than once is cut where it gives the lock
back: `cacheEndOpLocked` and `cacheEndOpFinish` are the two sections of
`cache_end_op`, with `commit` between them. A loop over the log's entries is the
list loop of its body (`writeLogBlock`, `installBlock`). -/
namespace OS2021.Fs
open Lib

variable (sb : SuperBlock) (arena : Arena)

/-- The block that holds the copy of entry `tail`: `log_start + tail + 1`. -/
def logBlock (tail : Nat) : UInt64 := (sb.logStart + UInt32.ofNat tail + 1).toUInt64

/-- `MIN(sblock->num_log_blocks - 1, LOG_MAX_SIZE)` -/
def logMx : Nat := min (sb.numLogBlocks - 1).toNat logMaxSize

def readHeader : M Unit :=
  modify fun m => {m.record ⟨false, .header, headerSector sb⟩ with
    header := LogHeader.ofBytes (m.disk (headerSector sb))}

def writeHeader : M Unit := do
  let m ← get
  diskWrite .header (headerSector sb) m.header.toBytes

/-- `header.block_no[tail]` -/
def headerEntry (tail : Nat) : M UInt64 := do
  let m ← get
  if h : tail < logMaxSize then return m.header.blockNo ⟨tail, h⟩ else throw .fault

/-- `header.num_blocks = 0` -/
def clearHeader : M Unit := modify fun m => {m with header := {m.header with numBlocks := 0}}

/-! ### Recovery -/

/-- `dbuf->pinned = false` -/
def Machine.unpin (m : Machine) (p : Ptr) : Machine := m.setBlock p fun b => {b with pinned := false}

/-- One iteration of `install_trans`. -/
def installBlock (recovering : Bool) (tail : Nat) : M Unit := do
  let lbuf ← cacheAcquire arena (logBlock sb tail)
  let b ← headerEntry tail
  let dbuf ← cacheAcquire arena b
  copyData dbuf lbuf
  deviceWrite dbuf
  modify fun m => if recovering then m.unpin dbuf else m
  cacheRelease lbuf
  cacheRelease dbuf

def installTrans (recovering : Bool) : M Unit := do
  let m ← get
  (List.range m.header.numBlocks).forM (installBlock sb arena recovering)

def recoverFromLog : M Unit := do
  readHeader sb
  installTrans sb arena true
  clearHeader
  writeHeader sb

def initBcache : M Unit := do
  modify fun m => {m with head := [], log := {m.log with mu := 0, mx := logMx sb}}
  recoverFromLog sb arena

/-- A kernel that has just booted on a disk: its static memory is zero. -/
def boot (disk : UInt64 → BlockData) (power : Nat) : Machine :=
  { disk, power, accesses := [], heap := fun _ => initBlock, head := [], allocs := 0
    frees := fun _ => 0, header := .zero, log := ⟨0, 0, 0, 0⟩, ctx := fun _ => ⟨0, 0⟩ }

/-! ### Atomic operations -/

def cacheBeginOp (c : Nat) : M Unit := do
  let m ← get
  if m.log.committing ≠ 0 then throw (.asleep .log)
  else if m.header.numBlocks + m.log.mu + opMaxNumBlocks > m.log.mx then throw (.asleep .log)
  else set {m with
    log := {m.log with outstanding := m.log.outstanding + 1, mu := m.log.mu + opMaxNumBlocks}
    ctx := Function.update m.ctx c ⟨(m.log.outstanding + 1).toNat, opMaxNumBlocks⟩}

/-- The slot of the header that records a block: its own if it has one, else the first free one. -/
def LogHeader.slot (h : LogHeader) (b : UInt64) : Nat := h.entries.findIdx (· == b)

def LogHeader.setEntry (h : LogHeader) (i : Fin logMaxSize) (b : UInt64) : LogHeader :=
  {h with blockNo := Function.update h.blockNo i b}

/-- A new entry is charged to the operation that made it. -/
def chargeEntry (c : Nat) (p : Ptr) : M Unit := do
  modify fun m => {m.setBlock p fun b => {b with pinned := true} with
    header := {m.header with numBlocks := m.header.numBlocks + 1}}
  let m ← get
  if 0 < (m.ctx c).rm then
    set {m with
      ctx := Function.update m.ctx c {m.ctx c with rm := (m.ctx c).rm - 1}
      log := {m.log with mu := m.log.mu - 1}}
  else throw (.panic "OP_MAX_BLOCK exceeded")

def cacheSync : Option Nat → Ptr → M Unit
  | none, p => deviceWrite p
  | some c, p => do
    let m ← get
    if m.log.mx ≤ m.header.numBlocks then throw (.panic "too big a transaction")
    else if m.log.outstanding < 1 then throw (.panic "log_write outside of trans")
    else
      let b := (m.heap p).blockNo
      let i := m.header.slot b
      if h : i < logMaxSize then do
        set {m with header := m.header.setEntry ⟨i, h⟩ b}
        if i = m.header.numBlocks then chargeEntry c p else pure ()
      else throw .fault

/-- One iteration of `write_log`. -/
def writeLogBlock (tail : Nat) : M Unit := do
  let b ← headerEntry tail
  let src ← cacheAcquire arena b
  let dst ← cacheAcquire arena (logBlock sb tail)
  copyData dst src
  deviceWrite dst
  cacheRelease src
  cacheRelease dst

def writeLog : M Unit := do
  let m ← get
  (List.range m.header.numBlocks).forM (writeLogBlock sb arena)

def commit : M Unit := do
  let m ← get
  if 0 < m.header.numBlocks then do
    writeLog sb arena
    writeHeader sb
    installTrans sb arena false
    clearHeader
    writeHeader sb
  else pure ()

/-- `cache_end_op` up to where it gives `log.lock` back. An operation that is not
the last one wakes `&log` and sleeps. -/
def cacheEndOpLocked (c : Nat) : M Unit := do
  modify fun m => {m with
    log := {m.log with outstanding := m.log.outstanding - 1, mu := m.log.mu - (m.ctx c).rm}}
  let m ← get
  if m.log.committing ≠ 0 then throw (.panic "log committing")
  else if m.log.outstanding = 0 then set {m with log := {m.log with committing := 1}}
  else throw (.asleep .outstanding)

/-- The last section of `cache_end_op`, which also wakes both channels. -/
def cacheEndOpFinish : M Unit := modify fun m => {m with log := {m.log with committing := 0}}

def cacheEndOp (c : Nat) : M Unit := do
  cacheEndOpLocked c
  commit sb arena
  cacheEndOpFinish

/-! ### The bitmap -/

/-- `BBLOCK` -/
def bblock (b : UInt64) : UInt64 := b / bitPerBlock.toUInt64 + sb.bitmapStart.toUInt64

/-- `1 << (bi % 8)` as a byte. -/
def bitMask (bi : Nat) : UInt8 := 1 <<< UInt8.ofNat (bi % 8)

def bitIsSet (d : BlockData) (bi : Nat) : Bool := bytes d (bi / 8) &&& bitMask bi != 0

def setByte (d : BlockData) (i : Nat) (v : UInt8) : BlockData := fun j => if (j : Nat) = i then v else d j

def setBit (d : BlockData) (bi : Nat) : BlockData := setByte d (bi / 8) (bytes d (bi / 8) ||| bitMask bi)

def clearBit (d : BlockData) (bi : Nat) : BlockData :=
  setByte d (bi / 8) (bytes d (bi / 8) &&& ~~~ bitMask bi)

def modifyData (p : Ptr) (f : BlockData → BlockData) : M Unit :=
  modify fun m => m.setBlock p fun b => {b with data := f b.data}

def bzero (c : Option Nat) (b : UInt64) : M Unit := do
  let bp ← cacheAcquire arena b
  modifyData bp fun _ _ => 0
  cacheSync c bp
  cacheRelease bp

/-- The first bit below `n` that is clear. -/
def firstClear (d : BlockData) (n : Nat) : Option Nat := (List.range n).find? fun bi => !bitIsSet d bi

/-- One iteration of the outer loop of `cache_alloc`, over the bitmap block of `b`. -/
def allocIn (c : Option Nat) (b : Nat) : M (Option Nat) := do
  let bp ← cacheAcquire arena (bblock sb b.toUInt64)
  let m ← get
  match firstClear (m.heap bp).data (min bitPerBlock (sb.numBlocks.toNat - b)) with
  | some bi => do
    modifyData bp fun d => setBit d bi
    cacheSync c bp
    cacheRelease bp
    bzero arena c (b + bi).toUInt64
    return some (b + bi)
  | none => do
    cacheRelease bp
    return none

/-- The outer loop. Its counter is a `u32` that steps by `BIT_PER_BLOCK`: on a disk
with more blocks than `2 ^ 32 - BIT_PER_BLOCK` it wraps instead of ending. -/
def allocFrom (c : Option Nat) : List Nat → M Nat
  | [] =>
    if sb.numBlocks.toNat ≤ 2 ^ 32 - bitPerBlock then throw (.panic "cache_alloc: no free block")
    else throw .hang
  | b :: rest => do
    match ← allocIn sb arena c b with
    | some x => return x
    | none => allocFrom c rest

def cacheAlloc (c : Option Nat) : M Nat :=
  allocFrom sb arena c
    ((List.range ((sb.numBlocks.toNat + bitPerBlock - 1) / bitPerBlock)).map (· * bitPerBlock))

def cacheFree (c : Option Nat) (b : UInt64) : M Unit := do
  let bp ← cacheAcquire arena (bblock sb b)
  let m ← get
  let bi := b.toNat % bitPerBlock
  if bitIsSet (m.heap bp).data bi then do
    modifyData bp fun d => clearBit d bi
    cacheSync c bp
    cacheRelease bp
  else throw (.panic "freeing free block")

end OS2021.Fs
