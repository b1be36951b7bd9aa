import Mathlib.Data.List.FinRange
import ECE3056.Library.AddressSplit

/-!
# The multi-level cache simulator, `Multi_Level_Cache/cachesim.c`

Both L1 caches are direct-mapped with 256 lines of 64 bytes; the L2 cache keeps
128 slots a set, of which the first `ways` are in use. An `int` result of -1 is
`none`, and an access that would index an array out of bounds has no result.
The `counter_t` counters are natural numbers: each grows by at most two in a
call, so below 2^63 calls they agree with the 64-bit ones.
-/
namespace ECE3056.Cache

abbrev Addr := BitVec 64

/-- `l2_cache_struct`: one set. -/
structure L2CacheStruct where
  tag : Fin 128 → Addr
  validBit : Fin 128 → Int
  dirtyBit : Fin 128 → Int
  lruCounter : Fin 128 → Int

/-- `l1_cache_struct`: one line. -/
structure L1CacheStruct where
  tag : Addr
  validBit : Int
  dirtyBit : Int

/-- The three arguments of `cachesim_init`. -/
structure Config where
  l2Blocksize : Nat
  l2Cachesize : Nat
  l2Ways : Nat

namespace Config

def l2IndexMax (c : Config) : Nat := c.l2Cachesize / (c.l2Blocksize * c.l2Ways)
def l2IndexSize (c : Config) : Nat := Nat.log2 c.l2IndexMax
def l2OffsetSize (c : Config) : Nat := Nat.log2 c.l2Blocksize
def l2TagSize (c : Config) : Nat := 64 - c.l2IndexSize - c.l2OffsetSize
def maxLRU (c : Config) : Nat := c.l2Ways

end Config

def l1IndexMax : Nat := 256
def l1IndexSize : Nat := Nat.log2 l1IndexMax
def l1OffsetSize : Nat := Nat.log2 64
def l1TagSize : Nat := 64 - l1IndexSize - l1OffsetSize

/-- The arrays and the counters the two access functions update. -/
structure Cachesim where
  l2Cache : Nat → L2CacheStruct
  iCache : Nat → L1CacheStruct
  dCache : Nat → L1CacheStruct
  accesses : Nat
  writebacks : Nat
  dHit : Nat
  dMiss : Nat
  iHit : Nat
  iMiss : Nat
  l2Hit : Nat
  l2Miss : Nat
  writeMiss : Nat
  writeCount : Nat

/-- A set as `cachesim_init` leaves it: slots past `ways` hold the sentinel -1. -/
def initSet (c : Config) : L2CacheStruct where
  tag j := if j.val < c.l2Ways then 0 else -1
  validBit j := if j.val < c.l2Ways then 0 else -1
  dirtyBit j := if j.val < c.l2Ways then 0 else -1
  lruCounter j := if j.val < c.l2Ways then j.val else -1

def initLine : L1CacheStruct := ⟨0, 0, 0⟩

def cachesimInit (c : Config) : Cachesim where
  l2Cache _ := initSet c
  iCache _ := initLine
  dCache _ := initLine
  accesses := 0
  writebacks := 0
  dHit := 0
  dMiss := 0
  iHit := 0
  iMiss := 0
  l2Hit := 0
  l2Miss := 0
  writeMiss := 0
  writeCount := 0

/-- Loop over the LRU array to find 0. -/
def getLRUIndex (cache : L2CacheStruct) : Option (Fin 128) :=
  (List.finRange 128).find? fun i => cache.lruCounter i = 0

/-- The first slot whose tag matches and whose valid bit is non-zero. -/
def checkTagAndValidBit (cache : L2CacheStruct) (tag : Addr) : Option (Fin 128) :=
  (List.finRange 128).find? fun i =>
    cache.tag i ≠ -1 ∧ cache.validBit i ≠ 0 ∧ cache.tag i = tag

/-- One round of the "set LRU counter" loop. It reads the promoted counter anew. -/
def ageSlot (blockIndex : Fin 128) (lru : Fin 128 → Int) (i : Fin 128) : Fin 128 → Int :=
  if lru i ≠ -1 then
    if lru i > lru blockIndex then Function.update lru i (lru i - 1) else lru
  else lru

def setLRUCounter (c : Config) (cache : L2CacheStruct) (blockIndex : Fin 128) : L2CacheStruct :=
  { cache with
    lruCounter :=
      Function.update ((List.finRange 128).foldl (ageSlot blockIndex) cache.lruCounter) blockIndex
        ((c.maxLRU : Int) - 1) }

/-- The hit branch: a write sets the dirty bit. -/
def hitBlock (cache : L2CacheStruct) (blockIndex : Fin 128) (input : Char) : L2CacheStruct :=
  if input = 'w' then { cache with dirtyBit := Function.update cache.dirtyBit blockIndex 1 }
  else cache

/-- The miss branch, once `get_LRU_index` has named the slot to refill. -/
def fillBlock (cache : L2CacheStruct) (blockIndex : Fin 128) (tag : Addr) (input : Char) :
    L2CacheStruct :=
  let dirtyBit :=
    if cache.dirtyBit blockIndex = 1 then Function.update cache.dirtyBit blockIndex 0
    else cache.dirtyBit
  { cache with
    tag := Function.update cache.tag blockIndex tag
    validBit := Function.update cache.validBit blockIndex 1
    dirtyBit := if input = 'w' then Function.update dirtyBit blockIndex 1 else dirtyBit }

def l2Index (c : Config) (physicalAddr : Addr) : Nat :=
  AddressSplit.index c.l2TagSize c.l2OffsetSize physicalAddr

def l2Tag (c : Config) (physicalAddr : Addr) : Addr :=
  AddressSplit.tag (c.l2IndexSize + c.l2OffsetSize) physicalAddr

def l1Index (physicalAddr : Addr) : Nat := AddressSplit.index l1TagSize l1OffsetSize physicalAddr

def l1Tag (physicalAddr : Addr) : Addr := AddressSplit.tag (l1IndexSize + l1OffsetSize) physicalAddr

/-- Counting an access that reaches the L2 cache. -/
def l2Count (s : Cachesim) (input : Char) : Cachesim :=
  { s with
    accesses := s.accesses + 1
    writeCount := if input = 'w' then s.writeCount + 1 else s.writeCount }

def l2OnHit (c : Config) (s : Cachesim) (index : Nat) (blockIndex : Fin 128) (input : Char) :
    Cachesim :=
  { s with
    l2Hit := s.l2Hit + 1
    l2Cache := Function.update s.l2Cache index
      (setLRUCounter c (hitBlock (s.l2Cache index) blockIndex input) blockIndex) }

def l2OnMiss (c : Config) (s : Cachesim) (index : Nat) (blockIndex : Fin 128) (tag : Addr)
    (input : Char) : Cachesim :=
  { s with
    l2Miss := s.l2Miss + 1
    writebacks :=
      if (s.l2Cache index).dirtyBit blockIndex = 1 then s.writebacks + 1 else s.writebacks
    writeMiss := if input = 'w' then s.writeMiss + 1 else s.writeMiss
    l2Cache := Function.update s.l2Cache index
      (setLRUCounter c (fillBlock (s.l2Cache index) blockIndex tag input) blockIndex) }

def l2CachesimAccess (c : Config) (s : Cachesim) (physicalAddr : Addr) (input : Char) :
    Option Cachesim :=
  let index := l2Index c physicalAddr
  let tag := l2Tag c physicalAddr
  if index < c.l2IndexMax then
    match checkTagAndValidBit (s.l2Cache index) tag with
    | some blockIndex => some (l2OnHit c (l2Count s input) index blockIndex input)
    | none =>
      match getLRUIndex (s.l2Cache index) with
      | some blockIndex => some (l2OnMiss c (l2Count s input) index blockIndex tag input)
      | none => none
  else none

/-- The line that replaces a missed one; a dirty bit left behind is only cleared. -/
def refillLine (line : L1CacheStruct) (tag : Addr) (input : Char) : L1CacheStruct :=
  let dirtyBit := if line.dirtyBit = 1 then 0 else line.dirtyBit
  { tag := tag
    validBit := 1
    dirtyBit := if input = 'w' then 1 else dirtyBit }

def l1CachesimAccess (c : Config) (s : Cachesim) (physicalAddr : Addr) (input : Char) :
    Option Cachesim :=
  let index := l1Index physicalAddr
  let tag := l1Tag physicalAddr
  let s := { s with accesses := s.accesses + 1 }
  if input = 'w' ∨ input = 'r' then
    if (s.dCache index).tag = tag then
      some { s with
        dHit := s.dHit + 1
        dCache := if input = 'w' then
          Function.update s.dCache index { s.dCache index with dirtyBit := 1 } else s.dCache }
    else
      (l2CachesimAccess c { s with dMiss := s.dMiss + 1 } physicalAddr input).map fun s =>
        { s with dCache := Function.update s.dCache index (refillLine (s.dCache index) tag input) }
  else if input = 'i' then
    if (s.iCache index).tag = tag then
      some { s with iHit := s.iHit + 1 }
    else
      (l2CachesimAccess c { s with iMiss := s.iMiss + 1 } physicalAddr input).map fun s =>
        { s with iCache := Function.update s.iCache index (refillLine (s.iCache index) tag input) }
  else some s

/-- One line of a trace: the physical address and the kind of access. -/
abbrev Access := Addr × Char

def l2Run (c : Config) (s : Cachesim) (trace : List Access) : Option Cachesim :=
  trace.foldlM (fun s a => l2CachesimAccess c s a.1 a.2) s

def l1Run (c : Config) (s : Cachesim) (trace : List Access) : Option Cachesim :=
  trace.foldlM (fun s a => l1CachesimAccess c s a.1 a.2) s

/-- With a set to name, the L2 split stays below the number of sets and loses nothing. -/
theorem Config.l2_exact (c : Config) (hsets : 1 ≤ c.l2IndexMax)
    (hbits : c.l2IndexSize + c.l2OffsetSize ≤ 64) :
    AddressSplit.Exact c.l2IndexMax c.l2OffsetSize (l2Index c) (l2Tag c) :=
  AddressSplit.split_exact hbits (Nat.log2_self_le (Nat.one_le_iff_ne_zero.mp hsets))

/-- So does the L1 split: its arrays are read and written within their bounds. -/
theorem l1_exact : AddressSplit.Exact l1IndexMax l1OffsetSize l1Index l1Tag :=
  @AddressSplit.split_exact l1IndexSize l1OffsetSize l1IndexMax (by decide) (by decide)

/-- The bits below the tag name no more bytes than the cache has. -/
theorem Config.bits_lt (c : Config) (hblocksize : 1 ≤ c.l2Blocksize) (hways : 1 ≤ c.l2Ways)
    (hsets : 1 ≤ c.l2IndexMax) (hsize : c.l2Cachesize < 2 ^ 31) :
    c.l2IndexSize + c.l2OffsetSize < 31 := by
  have hindex : 2 ^ c.l2IndexSize ≤ c.l2IndexMax :=
    Nat.log2_self_le (Nat.one_le_iff_ne_zero.mp hsets)
  have hoffset : 2 ^ c.l2OffsetSize ≤ c.l2Blocksize :=
    Nat.log2_self_le (Nat.one_le_iff_ne_zero.mp hblocksize)
  refine (Nat.pow_lt_pow_iff_right (by decide : 1 < 2)).mp (lt_of_le_of_lt ?_ hsize)
  calc 2 ^ (c.l2IndexSize + c.l2OffsetSize)
      = 2 ^ c.l2IndexSize * 2 ^ c.l2OffsetSize := pow_add _ _ _
    _ ≤ c.l2IndexMax * c.l2Blocksize := Nat.mul_le_mul hindex hoffset
    _ ≤ c.l2IndexMax * (c.l2Blocksize * c.l2Ways) :=
        Nat.mul_le_mul_left _ (Nat.le_mul_of_pos_right _ hways)
    _ ≤ c.l2Cachesize := Nat.div_mul_le_self _ _

/-- What the simulator is specified for: 1 to 128 ways, block size and number of
sets powers of two, and an `int` cache size. -/
structure LegalConfig extends Config where
  ways_pos : 1 ≤ l2Ways
  ways_le : l2Ways ≤ 128
  blocksize_pow : l2Blocksize = 2 ^ Nat.log2 l2Blocksize
  sets_pow : toConfig.l2IndexMax = 2 ^ toConfig.l2IndexSize
  bits_pos : 1 ≤ toConfig.l2IndexSize + toConfig.l2OffsetSize
  cachesize_lt : l2Cachesize < 2 ^ 31

namespace LegalConfig

variable (c : LegalConfig)

theorem sets_pos : 1 ≤ c.l2IndexMax := by
  rw [c.sets_pow]
  exact Nat.one_le_two_pow

theorem bits_le : c.l2IndexSize + c.l2OffsetSize ≤ 31 := by
  have hblocksize : 1 ≤ c.l2Blocksize := by
    rw [c.blocksize_pow]
    exact Nat.one_le_two_pow
  exact (c.bits_lt hblocksize c.ways_pos c.sets_pos c.cachesize_lt).le

theorem index_lt (a : Addr) : l2Index c.toConfig a < c.l2IndexMax :=
  (c.l2_exact c.sets_pos (c.bits_le.trans (by decide))).index_lt a

theorem tag_ne_sentinel (a : Addr) : l2Tag c.toConfig a ≠ -1 :=
  AddressSplit.tag_ne_allOnes c.bits_pos a

end LegalConfig

/-- Four sets of 64-byte blocks, with `ways` ways. -/
def fourSets (ways : Nat) (hpos : 1 ≤ ways) (hle : ways ≤ 128) : LegalConfig where
  l2Blocksize := 64
  l2Cachesize := 256 * ways
  l2Ways := ways
  ways_pos := hpos
  ways_le := hle
  blocksize_pow := by decide
  sets_pow := by
    have hmax : Config.l2IndexMax ⟨64, 256 * ways, ways⟩ = 4 := by
      unfold Config.l2IndexMax
      rw [show 256 * ways = 4 * (64 * ways) by ring]
      exact Nat.mul_div_cancel _ (by positivity)
    rw [Config.l2IndexSize, hmax]
    decide
  bits_pos := by
    have hlog : Nat.log2 64 = 6 := by decide
    rw [Config.l2OffsetSize, hlog]
    omega
  cachesize_lt := by show 256 * ways < 2 ^ 31; omega

def oneWay : LegalConfig := fourSets 1 (by decide) (by decide)
def twoWays : LegalConfig := fourSets 2 (by decide) (by decide)

end ECE3056.Cache
