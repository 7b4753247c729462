import Qdma.Lib.ByteMem
import Qdma.Parts

/-!
# The tools that move a file

`dma_to_device` writes a buffer to the card, as often as it is told, and `dma_from_device` reads
one from there; both go through the character device of a queue in chunks of no more than
`RW_MAX_SIZE` bytes.  The address on the card is the position of the open file.

Three things have to go together for a chunk to come to its place.  The tools set the position
before each chunk, but not where the offset is 0; the driver takes the position as the
address and does not move it on, as a regular file does; and each call of the worker that posts
a part of the chunk begins at the position again.

* `OpenFile.rw` is a `read` or a `write`, in parts where the file is the card.
  `cdev_call_carries` is what it has from the driver: a call on the character device moves the
  bytes as the descriptors do that are posted for it, whatever the worker finds free.
* `rwLoop` is the loop of `read_to_buffer` and of `write_from_buffer`, `toolPasses` the one of
  `test_dma` in both tools.
* `to_device_bytes` says which bytes a run of `dma_to_device` that returns 0 leaves on the card: a
  chunk is there if it was posted in one call, and if not, it begins with a later byte.  With
  more than one chunk at address 0, the first chunk of a pass goes to where the last chunk of the
  pass before was.  The ring is too short for a large file (`to_device_too_long`).
* `from_device_bytes` says the same of the file that `dma_from_device` writes, byte by byte.
  Either tool does return 0 when all calls go in full (`to_device_full`, `toolPasses_full`).
* `file_there_and_back` puts a file on the card and takes it off again.
-/

namespace Qdma

open Lib Lib.Extent

/-! ## Files -/

def rwMaxSize : ℕ := 0x7ffff000

/-- A file that is open: a regular one, with its size, or the character device of an MM queue,
whose bytes are those of the card. -/
structure OpenFile where
  regular : Bool
  bytes : ByteMem
  size : ℕ
  pos : ℕ

inductive RwDir
  | read
  | write
  deriving DecidableEq

/-- How a `read` or a `write` goes: how many bytes are moved, call by call of the worker where the
file is the card, and whether it returns an error. -/
structure RwFate where
  parts : List ℕ
  fails : Bool

/-- The file and the buffer after `n` bytes were moved, one after the other: byte `j` is at `b + j`
of the buffer and at `place j` of the file. -/
def RwDir.moved (file : ByteMem) (place : ℕ → ℕ) (mem : ByteMem) (b n : ℕ) :
    RwDir → ByteMem × ByteMem
  | .read => (file, store mem ((List.range n).map (b + ·)) ((List.range n).map (file <| place ·)))
  | .write => (store file ((List.range n).map place) ((List.range n).map (mem <| b + ·)), mem)

/-- `lseek` with `SEEK_SET`; in the driver that is `cdev_gen_llseek`. -/
def OpenFile.lseek (f : OpenFile) (off : BitVec 64) : ℤ × OpenFile :=
  if off.toInt < 0 then (-1, f) else (off.toInt, { f with pos := off.toNat })

/-- How many of `n` bytes are moved. -/
def OpenFile.count (f : OpenFile) (dir : RwDir) (n : ℕ) (fate : RwFate) : ℕ :=
  min fate.parts.sum (if dir = .read ∧ f.regular = true then min n (f.size - f.pos) else n)

/-- The place of byte `j` of a call, from the position on: the address of the card is
`req->ep_addr` for every part. -/
def RwFate.offset (regular : Bool) (fate : RwFate) (j : ℕ) : ℕ :=
  if regular then j else inParts fate.parts j

/-- `read` or `write` of `n` bytes at the place `b` of a buffer: the result, the file and the
buffer.  `cdev_gen_read_write` leaves the position where it is. -/
def OpenFile.rw (f : OpenFile) (dir : RwDir) (mem : ByteMem) (b n : ℕ) (fate : RwFate) :
    ℤ × OpenFile × ByteMem :=
  let k := f.count dir n fate
  let m := dir.moved f.bytes (fun j => f.pos + fate.offset f.regular j) mem b k
  (if fate.fails then -1 else k, { f with
    bytes := m.1
    size := if dir = .write ∧ f.regular = true then max f.size (f.pos + k) else f.size
    pos := if f.regular then f.pos + k else f.pos }, m.2)

/-! ## The loops -/

/-- `read_to_buffer` and `write_from_buffer` from the state on in which `count` of `size` bytes are
moved, for at most `fuel` chunks. -/
def rwLoop (dir : RwDir) (size : ℕ) :
    ℕ → ℕ → ℕ → BitVec 64 → (ℕ → RwFate) → OpenFile → ByteMem → ℤ × OpenFile × ByteMem
  | 0, _, _, _, _, f, mem => (-eio, f, mem)
  | fuel + 1, count, b, offset, fates, f, mem =>
      if count < size then
        let bytes := min (size - count) rwMaxSize
        let s := if offset ≠ 0 then f.lseek offset else (0, f)
        if s.1 < 0 then (-eio, s.2, mem)
        else
          let r := s.2.rw dir mem b bytes (fates 0)
          if r.1 ≠ bytes then (-eio, r.2)
          else
            rwLoop dir size fuel (count + bytes) (b + bytes) (offset + BitVec.ofNat 64 bytes)
              (fun c => fates (c + 1)) r.2.1 r.2.2
      else if count ≠ size then (-eio, f, mem)
      else (count, f, mem)

/-- `read_to_buffer` and `write_from_buffer`; no chunk is empty. -/
def rwBuffer (dir : RwDir) (f : OpenFile) (mem : ByteMem) (b size : ℕ) (base : BitVec 64)
    (fates : ℕ → RwFate) : ℤ × OpenFile × ByteMem :=
  rwLoop dir size (size + 1) 0 b base fates f mem

/-- How the calls of a tool go, chunk by chunk, of each pass. -/
structure ToolFates where
  infile : ℕ → RwFate
  card : ℕ → ℕ → RwFate
  outfile : ℕ → ℕ → RwFate

structure ToolState where
  card : OpenFile
  out : Option OpenFile
  buf : ByteMem

/-- A pass of the loop of `test_dma`: `buffer` is at the place `b` of what was allocated. -/
def toolPass (dir : RwDir) (F : ToolFates) (b size : ℕ) (addr : BitVec 64) (i : ℕ)
    (s : ToolState) : ℤ × ToolState :=
  let r := rwBuffer dir s.card s.buf b size addr (F.card i)
  let s := { s with card := r.2.1, buf := r.2.2 }
  if r.1 < 0 then (r.1, s)
  else
    match s.out with
    | none => (r.1, s)
    | some out =>
        let w := rwBuffer .write out s.buf b size (BitVec.ofNat 64 (i * size)) (F.outfile i)
        (w.1, { s with out := some w.2.1, buf := w.2.2 })

/-- The loop, from the pass `i` on. -/
def toolPasses (dir : RwDir) (F : ToolFates) (b size : ℕ) (addr : BitVec 64) :
    ℕ → ℕ → ToolState → ℤ × ToolState
  | 0, _, s => (0, s)
  | k + 1, i, s =>
      let r := toolPass dir F b size addr i s
      if r.1 < 0 then r else toolPasses dir F b size addr k (i + 1) r.2

/-- `test_dma` of `dma_to_device`, with its files open and its buffer allocated. -/
def testDmaToDevice (F : ToolFates) (b size : ℕ) (addr : BitVec 64) (count : ℕ)
    (infile : Option OpenFile) (s : ToolState) : ℤ × ToolState :=
  match infile with
  | none => toolPasses .write F b size addr count 0 s
  | some f =>
      let r := rwBuffer .read f s.buf b size 0 F.infile
      let s := { s with buf := r.2.2 }
      if r.1 < 0 then (r.1, s) else toolPasses .write F b size addr count 0 s

/-- `test_dma` of `dma_from_device`, likewise; `no_write` is as if there were no file. -/
def testDmaFromDevice (F : ToolFates) (b size : ℕ) (addr : BitVec 64) (count : ℕ)
    (s : ToolState) : ℤ × ToolState := toolPasses .read F b size addr count 0 s

/-! ## Moving bytes -/

section Moved

variable {dir : RwDir} {file mem : ByteMem} {place : ℕ → ℕ} {b n k i j : ℕ}

theorem RwDir.moved_zero (dir : RwDir) (file mem : ByteMem) (place : ℕ → ℕ) (b : ℕ) :
    dir.moved file place mem b 0 = (file, mem) := by
  cases dir with
  | read => rfl
  | write => rfl

theorem RwDir.moved_congr {q : ℕ → ℕ} (h : ∀ j < n, place j = q j) :
    dir.moved file place mem b n = dir.moved file q mem b n := by
  have hmap : (List.range n).map place = (List.range n).map q :=
    List.map_congr_left fun j hj => h j (List.mem_range.mp hj)
  have hvals : (List.range n).map (file <| place ·) = (List.range n).map (file <| q ·) :=
    List.map_congr_left fun j hj => congrArg file (h j (List.mem_range.mp hj))
  unfold RwDir.moved
  cases dir with
  | read => rw [hvals]
  | write => rw [hmap]

/-- Two moves in a row are one. -/
theorem RwDir.moved_append (dir : RwDir) (file mem : ByteMem) (place q : ℕ → ℕ) (b n k : ℕ) :
    dir.moved (dir.moved file place mem b n).1 q (dir.moved file place mem b n).2 (b + n) k =
      dir.moved file (fun j => if j < n then place j else q (j - n)) mem b (n + k) := by
  have hfirst : ∀ j ∈ List.range n, (if j < n then place j else q (j - n)) = place j :=
    fun j hj => if_pos (List.mem_range.mp hj)
  have hnext : ∀ j, (if n + j < n then place (n + j) else q (n + j - n)) = q j := fun j => by
    rw [if_neg (by omega), Nat.add_sub_cancel_left]
  have hlen : ∀ {β γ : Type} (f : ℕ → β) (g : ℕ → γ),
      ((List.range n).map f).length = ((List.range n).map g).length := fun f g => by
    rw [List.length_map, List.length_map]
  cases dir with
  | read =>
      refine Prod.ext rfl ?_
      dsimp only [RwDir.moved]
      rw [List.range_add, List.map_append, List.map_append, store_append _ _ _ (hlen _ _),
        List.map_map, List.map_map]
      congr 1
      · congr 1
        exact List.map_congr_left fun j hj => congrArg file (hfirst j hj).symm
      · exact List.map_congr_left fun j _ => Nat.add_assoc b n j
      · exact List.map_congr_left fun j _ => congrArg file (hnext j).symm
  | write =>
      refine Prod.ext ?_ rfl
      dsimp only [RwDir.moved]
      rw [List.range_add, List.map_append, List.map_append, store_append _ _ _ (hlen _ _),
        List.map_map, List.map_map]
      congr 1
      · congr 1
        exact List.map_congr_left fun j hj => (hfirst j hj).symm
      · exact List.map_congr_left fun j _ => (hnext j).symm
      · exact List.map_congr_left fun j _ => congrArg mem (Nat.add_assoc b n j)

/-- A byte that is read. -/
theorem moved_read_at (hj : j < n) :
    (RwDir.read.moved file place mem b n).2 (b + j) = file (place j) :=
  store_range_last (f := (b + ·)) (g := (file <| place ·)) mem hj fun i _ _ heq => by omega

/-- A byte that is written is there when no later byte goes to its place. -/
theorem moved_write_at (hj : j < n) (hlast : ∀ i, j < i → i < n → place i ≠ place j) :
    (RwDir.write.moved file place mem b n).1 (place j) = mem (b + j) :=
  store_range_last (g := (mem <| b + ·)) file hj hlast

theorem moved_write_out (h : ∀ j < n, place j ≠ i) :
    (RwDir.write.moved file place mem b n).1 i = file i := by
  refine store_of_notMem _ _ _ fun hmem => ?_
  obtain ⟨j, hj, heq⟩ := List.mem_map.mp hmem
  exact h j (List.mem_range.mp hj) heq

end Moved

/-! ## A call on the character device -/

/-- The card and a buffer as the driver has them, the buffer at the addresses `buffer`. -/
structure SeenBy (m : DmaMem) (buffer : List (BitVec 64)) (f : OpenFile) (mem : ByteMem) (b : ℕ) :
    Prop where
  card : ∀ a < 2 ^ 64, f.bytes a = m.card (BitVec.ofNat 64 a)
  buf : ∀ (i : ℕ) (hi : i < buffer.length), mem (b + i) = m.host buffer[i]

/-- **What a call does is what its descriptors do**: a request of whole pages or less on an MM
queue, for any free descriptors the worker finds until it is posted.  No part is longer than so
many pages as there were free descriptors. -/
theorem cdev_call_carries {x : Xfer} {id : ReqId} {avs : List ℕ} (hst : x.descq.conf.st = false)
    (hqueued : Queued x id) (hwf : (x.reqs id).WellFormed)
    (hpages : ∀ sg ∈ (x.reqs id).sgt.sgl, 0 < sg.dmaLen ∧ sg.dmaLen ≤ pageSize)
    (hdone : id ∈ (procCalls id x avs).descq.pendList) {dir : RwDir}
    (hdir : x.descq.conf.c2h = decide (dir = .read)) {f : OpenFile} (hdev : f.regular = false)
    (hpos : (x.reqs id).epAddr = BitVec.ofNat 64 f.pos)
    (hend : f.pos + (x.reqs id).count ≤ 2 ^ 64) (hnodup : (x.reqs id).buffer.Nodup) {m : DmaMem}
    {mem : ByteMem} {b : ℕ} (hseen : SeenBy m (x.reqs id).buffer f mem b) :
    let parts := callParts xdmaDescBlenMax (x.reqs id).sgt.sgl 0 avs
    let r := f.rw dir mem b (x.reqs id).count ⟨parts, false⟩
    r.1 = (x.reqs id).count ∧
      SeenBy (m.carryAll x.descq.conf.c2h
        (((procCalls id x avs).postedFor id).map (·.desc.copy)))
        (x.reqs id).buffer r.2.1 r.2.2 b ∧
      ∀ R, (∀ a ∈ avs, a ≤ R) → ∀ n ∈ parts, n ≤ R * pageSize := by
  intro parts r
  have hbound : ∀ R, (∀ a ∈ avs, a ≤ R) → ∀ n ∈ parts, n ≤ R * pageSize := fun R havs =>
    le_of_mem_callParts (fun sg hsg => (hpages sg hsg).2) avs 0 havs
  have hshort : ∀ sg ∈ (x.reqs id).sgt.sgl, 0 < sg.dmaLen ∧ sg.dmaLen ≤ xdmaDescBlenMax :=
    fun sg hsg => ⟨(hpages sg hsg).1, (hpages sg hsg).2.trans (by decide)⟩
  obtain ⟨hcopy, hsum⟩ :=
    copy_in_parts hst hqueued hwf (resumesAtEdges_of_short hshort avs 0) hdone
  have hlen : (x.reqs id).buffer.length = (x.reqs id).count := by
    rw [← hwf]
    exact (length_bytesOf _).trans (congrArg List.sum List.map_map)
  have hcount : f.count dir (x.reqs id).count ⟨parts, false⟩ = (x.reqs id).count := by
    unfold OpenFile.count
    rw [if_neg fun h => absurd (hdev.symm.trans h.2) (by decide)]
    exact Nat.min_eq_right hsum
  have htotal : sglTotal (x.reqs id).sgt.sgl = (x.reqs id).count := hwf
  rw [DmaMem.carryAll_join, hcopy]
  unfold r OpenFile.rw RwFate.offset
  rw [hcount, hdev]
  dsimp only
  have haddrs : cardInParts (x.reqs id).epAddr parts (x.reqs id).count =
      ((List.range (x.reqs id).count).map fun i => f.pos + inParts parts i).map
        (BitVec.ofNat 64) := by
    unfold cardInParts
    rw [List.map_map, hpos]
    exact List.map_congr_left fun i _ => (BitVec.ofNat_add ..).symm
  have hinside : ∀ i < (x.reqs id).count, f.pos + inParts parts i < 2 ^ 64 := fun i hi => by
    have hle := inParts_le parts i
    omega
  refine ⟨rfl, ?_, hbound⟩
  cases dir with
  | read =>
      have hc2h : x.descq.conf.c2h = true := hdir
      have hcarry : m.carry true ((x.reqs id).copyInParts true parts) =
          ⟨store m.host (x.reqs id).buffer ((cardInParts (x.reqs id).epAddr parts
            (sglTotal (x.reqs id).sgt.sgl)).map m.card), m.card⟩ := rfl
      rw [hc2h, hcarry, htotal, haddrs, List.map_map, List.map_map]
      refine ⟨hseen.card, fun i hi => ?_⟩
      have hi' : i < (x.reqs id).count := hlen ▸ hi
      -- a buffer without repeats has what was read, byte for byte
      have hlens : (x.reqs id).buffer.length = ((List.range (x.reqs id).count).map
          (m.card ∘ BitVec.ofNat 64 ∘ fun i => f.pos + inParts parts i)).length := by
        rw [List.length_map, List.length_range, hlen]
      have hbyte := congrArg (·[i]?) (map_store m.host hnodup hlens)
      rw [List.getElem?_map, List.getElem?_map, List.getElem?_eq_getElem hi,
        List.getElem?_range hi'] at hbyte
      refine (moved_read_at hi').trans ?_
      exact (hseen.card _ (hinside i hi')).trans (Option.some.inj hbyte).symm
  | write =>
      have hc2h : x.descq.conf.c2h = false := hdir
      have hcarry : m.carry false ((x.reqs id).copyInParts false parts) =
          ⟨m.host, store m.card (cardInParts (x.reqs id).epAddr parts
            (sglTotal (x.reqs id).sgt.sgl)) ((x.reqs id).buffer.map m.host)⟩ := rfl
      rw [hc2h, hcarry, htotal, haddrs]
      refine ⟨fun a ha => ?_, hseen.buf⟩
      have hvals : (List.range (x.reqs id).count).map (mem <| b + ·) =
          (x.reqs id).buffer.map m.host := by
        refine List.ext_getElem (by rw [List.length_map, List.length_map, List.length_range, hlen])
          fun i _ hi => ?_
        rw [List.length_map] at hi
        rw [List.getElem_map, List.getElem_map, List.getElem_range]
        exact hseen.buf i hi
      -- the places in the file are the addresses of the card
      have hsame : ∀ i ∈ (List.range (x.reqs id).count).map fun i => f.pos + inParts parts i,
          BitVec.ofNat 64 i = BitVec.ofNat 64 a → i = a := fun i hi heq => by
        obtain ⟨j, hj, rfl⟩ := List.mem_map.mp hi
        have hplace := hinside j (List.mem_range.mp hj)
        have hnat := congrArg BitVec.toNat heq
        rwa [BitVec.toNat_ofNat, BitVec.toNat_ofNat, Nat.mod_eq_of_lt hplace,
          Nat.mod_eq_of_lt ha] at hnat
      refine Eq.trans ?_ (store_map_comp m.card ((x.reqs id).buffer.map m.host) hsame).symm
      rw [← hvals]
      exact store_congr _ _ (hseen.card a ha)

/-! ## One chunk -/

theorem rwMaxSize_pos : 0 < rwMaxSize := by decide

theorem rwMaxSize_lt : rwMaxSize < 2 ^ 31 := by decide

/-- Where the last chunk of `n` bytes begins. -/
def lastChunk (n : ℕ) : ℕ := (n - 1) / rwMaxSize * rwMaxSize

theorem lastChunk_of_le {n : ℕ} (h : n ≤ rwMaxSize) : lastChunk n = 0 := by
  have hpos := rwMaxSize_pos
  unfold lastChunk
  rw [Nat.div_eq_of_lt (by omega), Nat.zero_mul]

theorem lastChunk_of_lt {n : ℕ} (h : rwMaxSize < n) :
    lastChunk n = rwMaxSize + lastChunk (n - rwMaxSize) := by
  have hpos := rwMaxSize_pos
  unfold lastChunk
  rw [Nat.div_eq_sub_div hpos (by omega), Nat.succ_mul, Nat.add_comm, Nat.sub_right_comm]

/-- The last chunk goes to the end. -/
theorem lastChunk_lt {n : ℕ} (h : 0 < n) : lastChunk n < n ∧ n ≤ lastChunk n + rwMaxSize := by
  have hpos := rwMaxSize_pos
  have hmod := Nat.mod_lt (n - 1) hpos
  have hdiv := Nat.div_add_mod (n - 1) rwMaxSize
  unfold lastChunk
  rw [Nat.mul_comm] at hdiv
  omega

/-- A call that moves as much as it was asked for. -/
theorem OpenFile.rw_full {f : OpenFile} {dir : RwDir} {mem : ByteMem} {b n : ℕ} {fate : RwFate}
    (hn : 0 < n) (h : (f.rw dir mem b n fate).1 = n) :
    (f.rw dir mem b n fate).2.1.regular = f.regular ∧
      ((f.rw dir mem b n fate).2.1.bytes, (f.rw dir mem b n fate).2.2) =
        dir.moved f.bytes (fun j => f.pos + fate.offset f.regular j) mem b n ∧
      (f.rw dir mem b n fate).2.1.pos = if f.regular then f.pos + n else f.pos := by
  have hcount : f.count dir n fate = n := by
    unfold OpenFile.rw at h
    dsimp only at h
    split at h
    · omega
    · exact Int.ofNat.inj h
  unfold OpenFile.rw
  rw [hcount]
  exact ⟨rfl, rfl, rfl⟩

/-- To read from a file leaves it as long as it is. -/
theorem OpenFile.rw_read_size (f : OpenFile) (mem : ByteMem) (b n : ℕ) (fate : RwFate) :
    (f.rw .read mem b n fate).2.1.size = f.size := by
  unfold OpenFile.rw
  dsimp only
  rw [if_neg fun h => absurd h.1 (by decide)]

theorem OpenFile.lseek_ok {f : OpenFile} {off : BitVec 64} (h : ¬ (f.lseek off).1 < 0) :
    (f.lseek off).2 = { f with pos := off.toNat } ∧ off.toNat < 2 ^ 63 := by
  unfold OpenFile.lseek at h ⊢
  by_cases hneg : off.toInt < 0
  · rw [if_pos hneg] at h
    exact absurd (show (-1 : ℤ) < 0 by decide) h
  · rw [if_neg hneg]
    refine ⟨rfl, ?_⟩
    rw [BitVec.toInt_eq_toNat_cond] at hneg
    split at hneg <;> omega

/-- Where the next chunk goes. -/
def OpenFile.place (f : OpenFile) (offset : BitVec 64) : ℕ :=
  if offset ≠ 0 then offset.toNat else f.pos

/-- A seek that does not fail leaves the file where the next chunk goes. -/
theorem OpenFile.seek_ok (f : OpenFile) (off : BitVec 64)
    (h : ¬ (if off ≠ 0 then f.lseek off else (0, f)).1 < 0) :
    (if off ≠ 0 then f.lseek off else (0, f)).2 = { f with pos := f.place off } ∧
      (off ≠ 0 → off.toNat < 2 ^ 63) := by
  unfold OpenFile.place
  by_cases hoff : off ≠ 0
  · rw [if_pos hoff] at h
    rw [if_pos hoff, if_pos hoff]
    exact ⟨(OpenFile.lseek_ok h).1, fun _ => (OpenFile.lseek_ok h).2⟩
  · rw [if_neg hoff, if_neg hoff]
    exact ⟨rfl, fun hne => absurd hne hoff⟩

/-- The offset behind a chunk, which is never 0. -/
theorem offset_next (off : BitVec 64) {n : ℕ} (hn : 0 < n) (h : off.toNat + n < 2 ^ 64) :
    (off + BitVec.ofNat 64 n).toNat = off.toNat + n ∧ off + BitVec.ofNat 64 n ≠ 0 := by
  have hoffset : (off + BitVec.ofNat 64 n).toNat = off.toNat + n := by
    rw [BitVec.toNat_add, BitVec.toNat_ofNat]
    omega
  refine ⟨hoffset, fun hzero => ?_⟩
  rw [hzero] at hoffset
  exact absurd hoffset.symm (Nat.add_pos_right _ hn).ne'

theorem rwLoop_succ (dir : RwDir) (size fuel count b : ℕ) (offset : BitVec 64)
    (fates : ℕ → RwFate) (f : OpenFile) (mem : ByteMem) :
    rwLoop dir size (fuel + 1) count b offset fates f mem =
      if count < size then
        let bytes := min (size - count) rwMaxSize
        let s := if offset ≠ 0 then f.lseek offset else (0, f)
        if s.1 < 0 then (-eio, s.2, mem)
        else
          let r := s.2.rw dir mem b bytes (fates 0)
          if r.1 ≠ bytes then (-eio, r.2)
          else
            rwLoop dir size fuel (count + bytes) (b + bytes) (offset + BitVec.ofNat 64 bytes)
              (fun c => fates (c + 1)) r.2.1 r.2.2
      else if count ≠ size then (-eio, f, mem)
      else (count, f, mem) := rfl

/-- **A chunk** of a loop that goes through: it goes to its place, and the loop goes on behind
it. -/
theorem rwLoop_chunk {dir : RwDir} {size fuel c b : ℕ} {off : BitVec 64} {fates : ℕ → RwFate}
    {f : OpenFile} {mem : ByteMem} (hc : c < size)
    (h : 0 ≤ (rwLoop dir size (fuel + 1) c b off fates f mem).1) :
    ∃ f₁ mem₁, f₁.regular = f.regular ∧
      (f₁.bytes, mem₁) =
        dir.moved f.bytes (fun j => f.place off + (fates 0).offset f.regular j) mem b
          (min (size - c) rwMaxSize) ∧
      (f₁.pos = if f.regular then f.place off + min (size - c) rwMaxSize else f.place off) ∧
      (off ≠ 0 → off.toNat < 2 ^ 63) ∧
      rwLoop dir size (fuel + 1) c b off fates f mem =
        rwLoop dir size fuel (c + min (size - c) rwMaxSize) (b + min (size - c) rwMaxSize)
          (off + BitVec.ofNat 64 (min (size - c) rwMaxSize)) (fun c => fates (c + 1)) f₁ mem₁ := by
  have hpos := rwMaxSize_pos
  have hn : 0 < min (size - c) rwMaxSize := by omega
  have heio : ¬ (0 : ℤ) ≤ -eio := by decide
  rw [rwLoop_succ, if_pos hc] at h ⊢
  dsimp only at h ⊢
  have hplace := OpenFile.seek_ok f off
  generalize (if off ≠ 0 then f.lseek off else (0, f)) = s at h hplace ⊢
  by_cases hseek : s.1 < 0
  · rw [if_pos hseek] at h
    exact absurd h heio
  · rw [if_neg hseek] at h ⊢
    obtain ⟨hfile, hlt⟩ := hplace hseek
    by_cases hfull : (s.2.rw dir mem b (min (size - c) rwMaxSize) (fates 0)).1 =
        (min (size - c) rwMaxSize : ℕ)
    · rw [if_neg (not_not.mpr hfull)] at h ⊢
      obtain ⟨hregular, hmoved, hpos'⟩ := OpenFile.rw_full hn hfull
      rw [hfile] at hregular hmoved hpos' ⊢
      exact ⟨_, _, hregular, hmoved, hpos', hlt, rfl⟩
    · rw [if_pos hfull] at h
      exact absurd h heio

/-! ## A buffer -/

/-- The place of byte `j` of a buffer whose first chunk goes to `p`, and the others follow from
`a` on. -/
def bytePlace (regular : Bool) (p a : ℕ) (fates : ℕ → RwFate) (j : ℕ) : ℕ :=
  (if j < rwMaxSize then p else a + j / rwMaxSize * rwMaxSize) +
    (fates (j / rwMaxSize)).offset regular (j % rwMaxSize)

section BytePlace

variable {regular : Bool} {p a i j : ℕ} {fates : ℕ → RwFate}

theorem bytePlace_first (h : j < rwMaxSize) :
    bytePlace regular p a fates j = p + (fates 0).offset regular j := by
  unfold bytePlace
  rw [if_pos h, Nat.div_eq_of_lt h, Nat.mod_eq_of_lt h]

theorem bytePlace_later :
    bytePlace regular p a fates (rwMaxSize + i) =
      bytePlace regular (a + rwMaxSize) (a + rwMaxSize) (fun c => fates (c + 1)) i := by
  unfold bytePlace
  rw [if_neg (by omega), Nat.add_div_left i rwMaxSize_pos, Nat.add_mod_left, Nat.succ_mul]
  split
  · next hi => rw [Nat.div_eq_of_lt hi, Nat.zero_mul, Nat.zero_add]
  · rw [Nat.add_comm (i / rwMaxSize * rwMaxSize), ← Nat.add_assoc a]

/-- The bytes of a regular file lie in a row. -/
theorem bytePlace_regular : bytePlace true a a fates j = a + j := by
  have hdiv := Nat.div_add_mod j rwMaxSize
  unfold bytePlace RwFate.offset
  rw [Nat.mul_comm] at hdiv
  rw [if_pos rfl]
  split
  · next hj => rw [Nat.mod_eq_of_lt hj]
  · omega

/-- A chunk and the chunks behind it. -/
theorem RwDir.moved_chunks (dir : RwDir) (file mem : ByteMem) (regular : Bool) (p a : ℕ)
    (fates : ℕ → RwFate) (b n : ℕ) :
    dir.moved
        (dir.moved file (fun j => p + (fates 0).offset regular j) mem b (min n rwMaxSize)).1
        (bytePlace regular (a + min n rwMaxSize) (a + min n rwMaxSize) fun c => fates (c + 1))
        (dir.moved file (fun j => p + (fates 0).offset regular j) mem b (min n rwMaxSize)).2
        (b + min n rwMaxSize) (n - min n rwMaxSize) =
      dir.moved file (bytePlace regular p a fates) mem b n := by
  rw [dir.moved_append, show min n rwMaxSize + (n - min n rwMaxSize) = n by omega]
  refine RwDir.moved_congr fun j hj => ?_
  split
  · next hfirst => exact (bytePlace_first (by omega)).symm
  · next hlater =>
      have hmin : min n rwMaxSize = rwMaxSize := by omega
      rw [hmin] at hlater ⊢
      have hj' : rwMaxSize + (j - rwMaxSize) = j := by omega
      exact bytePlace_later.symm.trans (congrArg _ hj')

end BytePlace

/-- What a loop that went through has done with `n` bytes that were to go to `a`. -/
structure RwDone (dir : RwDir) (fates : ℕ → RwFate) (f : OpenFile) (mem : ByteMem) (a b n : ℕ)
    (f' : OpenFile) (mem' : ByteMem) : Prop where
  moved : (f'.bytes, mem') = dir.moved f.bytes (bytePlace f.regular a a fates) mem b n
  regular : f'.regular = f.regular
  reach : 0 < n → a + lastChunk n < 2 ^ 63
  pos : f.regular = false → f'.pos = if n = 0 then f.pos else a + lastChunk n

/-- All chunks but one at offset 0 are set to their places. -/
theorem rwLoop_done {dir : RwDir} {size : ℕ} :
    ∀ {fuel c b : ℕ} {off : BitVec 64} {fates : ℕ → RwFate} {f : OpenFile} {mem : ByteMem},
      off ≠ 0 → c ≤ size → 0 ≤ (rwLoop dir size fuel c b off fates f mem).1 →
        RwDone dir fates f mem off.toNat b (size - c)
          (rwLoop dir size fuel c b off fates f mem).2.1
          (rwLoop dir size fuel c b off fates f mem).2.2 := by
  intro fuel
  induction fuel with
  | zero =>
      intro c b off fates f mem _ _ h
      exact absurd h (by decide : ¬ (0 : ℤ) ≤ -eio)
  | succ fuel ih =>
      intro c b off fates f mem hoff hle h
      rcases Nat.lt_or_ge c size with hc | hge
      · obtain ⟨f₁, mem₁, hregular, hmoved, hpos, hlt, hnext⟩ := rwLoop_chunk hc h
        have hsmall := rwMaxSize_lt
        have hmax := rwMaxSize_pos
        have hplace : f.place off = off.toNat := if_pos hoff
        have hoff' := hlt hoff
        have hrow :=
          dir.moved_chunks f.bytes mem f.regular off.toNat off.toNat fates b (size - c)
        rw [hplace] at hmoved hpos
        rw [hnext] at h ⊢
        generalize hn : min (size - c) rwMaxSize = n at hmoved hpos hrow h ⊢
        obtain ⟨hoffset, hne⟩ := offset_next off (show 0 < n by omega) (by omega)
        have hrest := ih hne (by omega) h
        rw [hoffset] at hrest
        obtain ⟨hmoved', hregular', hreach', hpos'⟩ := hrest
        obtain ⟨hbytes, hmem⟩ := Prod.mk.inj hmoved
        -- the last chunk is this one or one behind it
        have hlast : (size - (c + n) = 0 ∧ lastChunk (size - c) = 0) ∨
            (0 < size - (c + n) ∧ lastChunk (size - c) = n + lastChunk (size - (c + n))) := by
          rcases Nat.lt_or_ge rwMaxSize (size - c) with hmany | hone
          · right
            have hn' : n = rwMaxSize := by omega
            refine ⟨by omega, ?_⟩
            rw [lastChunk_of_lt hmany, hn', Nat.sub_sub]
          · left
            exact ⟨by omega, lastChunk_of_le hone⟩
        refine ⟨?_, hregular'.trans hregular, fun _ => ?_, fun hdev => ?_⟩
        · rw [hmoved', hregular, hbytes, hmem, ← Nat.sub_sub]
          exact hrow
        · rcases hlast with ⟨-, hl⟩ | ⟨hmore, hl⟩
          · rw [hl]
            exact hoff'
          · rw [hl, ← Nat.add_assoc]
            exact hreach' hmore
        · rw [hpos' (hregular.trans hdev), if_neg (by omega : ¬ size - c = 0)]
          rcases hlast with ⟨hnone, hl⟩ | ⟨hmore, hl⟩
          · rw [if_pos hnone, hpos, hdev, hl]
            rfl
          · rw [if_neg hmore.ne', hl, Nat.add_assoc]
      · have heq : c = size := le_antisymm hle hge
        subst heq
        rw [rwLoop_succ, if_neg (lt_irrefl c), if_neg (not_not.mpr rfl), Nat.sub_self]
        exact ⟨(dir.moved_zero ..).symm, rfl, fun hz => absurd hz (lt_irrefl 0), fun _ => rfl⟩

/-- **A buffer that went through**: where its bytes are, and where the next one begins. -/
structure RwOk (dir : RwDir) (fates : ℕ → RwFate) (f : OpenFile) (mem : ByteMem) (b size : ℕ)
    (base : BitVec 64) (f' : OpenFile) (mem' : ByteMem) : Prop where
  moved : (f'.bytes, mem') =
    dir.moved f.bytes (bytePlace f.regular (f.place base) base.toNat fates) mem b size
  regular : f'.regular = f.regular
  reach : 0 < size → base.toNat + lastChunk size < 2 ^ 63
  pos : base = 0 → f.regular = false → f'.pos = if size ≤ rwMaxSize then f.pos else lastChunk size

theorem rwBuffer_ok {dir : RwDir} {f : OpenFile} {mem : ByteMem} {b size : ℕ} {base : BitVec 64}
    {fates : ℕ → RwFate} (h : 0 ≤ (rwBuffer dir f mem b size base fates).1) :
    RwOk dir fates f mem b size base (rwBuffer dir f mem b size base fates).2.1
      (rwBuffer dir f mem b size base fates).2.2 := by
  have hmax := rwMaxSize_pos
  by_cases hbase : base = 0
  · subst hbase
    have hplace : f.place 0 = f.pos := if_neg (not_not.mpr rfl)
    have hzero : (0 : BitVec 64).toNat = 0 := rfl
    unfold rwBuffer at h ⊢
    rcases Nat.eq_zero_or_pos size with rfl | hsize
    · rw [rwLoop_succ, if_neg (lt_irrefl 0), if_neg (not_not.mpr rfl)]
      refine ⟨(dir.moved_zero ..).symm, rfl, fun hlt => absurd hlt (lt_irrefl 0), fun _ _ => ?_⟩
      rw [if_pos (Nat.zero_le _)]
    · -- the first chunk goes to where the file is, and the loop goes on from an offset
      obtain ⟨f₁, mem₁, hregular, hmoved, hpos, -, hnext⟩ := rwLoop_chunk hsize h
      have hrow := dir.moved_chunks f.bytes mem f.regular f.pos 0 fates b size
      rw [hplace] at hmoved hpos
      rw [hnext] at h ⊢
      rw [Nat.sub_zero, Nat.zero_add, show ∀ x : BitVec 64, 0 + x = x from BitVec.zero_add] at h ⊢
      rw [Nat.sub_zero] at hmoved hpos
      rw [Nat.zero_add] at hrow
      have hsmall := rwMaxSize_lt
      generalize hn : min size rwMaxSize = n at hmoved hpos hrow h ⊢
      have hoffset : (BitVec.ofNat 64 n).toNat = n := by
        rw [BitVec.toNat_ofNat]
        omega
      have hne : BitVec.ofNat 64 n ≠ 0 := fun heq => by
        rw [heq] at hoffset
        omega
      obtain ⟨hmoved', hregular', hreach', hpos'⟩ := rwLoop_done hne (by omega) h
      rw [hoffset] at hmoved' hreach' hpos'
      obtain ⟨hbytes, hmem⟩ := Prod.mk.inj hmoved
      refine ⟨?_, hregular'.trans hregular, fun _ => ?_, fun _ hdev => ?_⟩
      · rw [hmoved', hregular, hbytes, hmem, hplace, hzero]
        exact hrow
      · rcases Nat.lt_or_ge rwMaxSize size with hmany | hone
        · have hn' : n = rwMaxSize := by omega
          have hreach := hreach' (by omega)
          rw [hn'] at hreach
          rw [hzero, Nat.zero_add, lastChunk_of_lt hmany]
          exact hreach
        · rw [hzero, Nat.zero_add, lastChunk_of_le hone]
          decide
      · rw [hpos' (hregular.trans hdev)]
        rcases Nat.lt_or_ge rwMaxSize size with hmany | hone
        · have hn' : n = rwMaxSize := by omega
          rw [if_neg (by omega), if_neg (by omega), hn', lastChunk_of_lt hmany]
        · rw [if_pos (by omega), if_pos hone, hpos, hdev]
          rfl
  · have hplace : f.place base = base.toNat := if_pos hbase
    unfold rwBuffer at h ⊢
    obtain ⟨hmoved, hregular, hreach, -⟩ := rwLoop_done hbase (Nat.zero_le size) h
    rw [Nat.sub_zero] at hmoved hreach
    refine ⟨?_, hregular, hreach, fun hzero => absurd hzero hbase⟩
    rw [hmoved, hplace]

/-- No loop ends for want of fuel. -/
theorem rwLoop_fuel (dir : RwDir) (size : ℕ) :
    ∀ (fuel c b : ℕ) (off : BitVec 64) (fates : ℕ → RwFate) (f : OpenFile) (mem : ByteMem),
      size - c < fuel →
        rwLoop dir size (fuel + 1) c b off fates f mem =
          rwLoop dir size fuel c b off fates f mem := by
  intro fuel
  induction fuel with
  | zero => exact fun c b off fates f mem h => absurd h (Nat.not_lt_zero _)
  | succ fuel ih =>
      intro c b off fates f mem h
      have hmax := rwMaxSize_pos
      rw [rwLoop_succ dir size (fuel + 1), rwLoop_succ dir size fuel]
      by_cases hc : c < size
      · rw [if_pos hc, if_pos hc]
        dsimp only
        rw [ih _ _ _ _ _ _ (by omega)]
      · rw [if_neg hc, if_neg hc]

/-- A call that moves all of a chunk. -/
structure RwFate.Full (fate : RwFate) : Prop where
  ok : fate.fails = false
  all : rwMaxSize ≤ fate.parts.sum

theorem OpenFile.rw_of_full {f : OpenFile} {dir : RwDir} {mem : ByteMem} {b n : ℕ} {fate : RwFate}
    (hfate : fate.Full) (hn : n ≤ rwMaxSize)
    (hroom : dir = .read → f.regular = true → f.pos + n ≤ f.size) :
    (f.rw dir mem b n fate).1 = n := by
  have hall := hfate.all
  have hcount : f.count dir n fate = n := by
    unfold OpenFile.count
    split
    · next hread =>
        have hthere := hroom hread.1 hread.2
        omega
    · omega
  unfold OpenFile.rw
  rw [hcount, hfate.ok]
  rfl

/-- A loop whose calls all go in full goes through. -/
theorem rwLoop_full {dir : RwDir} {size : ℕ} :
    ∀ {fuel c b : ℕ} {off : BitVec 64} {fates : ℕ → RwFate} {f : OpenFile} {mem : ByteMem},
      size - c < fuel → c ≤ size → (∀ k, (fates k).Full) →
        off.toNat + (size - c) ≤ 2 ^ 63 →
        (dir = .read → f.regular = true →
          f.place off + (size - c) ≤ f.size ∧ off.toNat + (size - c) ≤ f.size) →
        (rwLoop dir size fuel c b off fates f mem).1 = size := by
  intro fuel
  induction fuel with
  | zero => exact fun h => absurd h (Nat.not_lt_zero _)
  | succ fuel ih =>
      intro c b off fates f mem hfuel hle hfates hreach hroom
      rw [rwLoop_succ]
      rcases Nat.lt_or_ge c size with hc | hge
      · have hmax := rwMaxSize_pos
        have hsmall := rwMaxSize_lt
        have hsign : ¬ (if off ≠ 0 then f.lseek off else (0, f)).1 < 0 := by
          have hoff : ¬ off.toInt < 0 := by
            rw [BitVec.toInt_eq_toNat_cond]
            split <;> omega
          split
          · unfold OpenFile.lseek
            rwa [if_neg hoff]
          · exact lt_irrefl 0
        have hseek := (OpenFile.seek_ok f off hsign).1
        rw [if_pos hc]
        dsimp only
        rw [if_neg hsign, hseek]
        generalize hn : min (size - c) rwMaxSize = n
        -- what was asked for is there
        have hfull : (({ f with pos := f.place off } : OpenFile).rw dir mem b n (fates 0)).1 = n :=
          OpenFile.rw_of_full (hfates 0) (by omega) fun hread hregular => by
            have hthere := (hroom hread hregular).1
            dsimp only
            omega
        rw [if_neg (not_not.mpr hfull)]
        obtain ⟨hoffset, hne⟩ := offset_next off (show 0 < n by omega) (by omega)
        refine ih (by omega) (by omega) (fun k => hfates (k + 1)) (by omega)
          fun hread hregular => ?_
        have hregular' : f.regular = true := hregular
        have hthere := (hroom hread hregular').2
        have hplace : OpenFile.place (({ f with pos := f.place off } : OpenFile).rw dir mem b n
            (fates 0)).2.1 (off + BitVec.ofNat 64 n) = off.toNat + n := (if_pos hne).trans hoffset
        have hsize : (({ f with pos := f.place off } : OpenFile).rw dir mem b n
            (fates 0)).2.1.size = f.size := by
          rw [hread]
          exact OpenFile.rw_read_size _ mem b n _
        rw [hplace, hoffset, hsize]
        omega
      · rw [if_neg (not_lt.mpr hge), if_neg (not_not.mpr (le_antisymm hle hge)),
          le_antisymm hle hge]

theorem rwBuffer_full {dir : RwDir} {f : OpenFile} {mem : ByteMem} {b size : ℕ} {base : BitVec 64}
    {fates : ℕ → RwFate} (hfates : ∀ k, (fates k).Full) (hreach : base.toNat + size ≤ 2 ^ 63)
    (hroom : dir = .read → f.regular = true →
      f.place base + size ≤ f.size ∧ base.toNat + size ≤ f.size) :
    (rwBuffer dir f mem b size base fates).1 = size :=
  rwLoop_full (by omega) (Nat.zero_le size) hfates hreach hroom

/-! ## The passes of a tool -/

section Passes

variable {F : ToolFates} {b size i : ℕ} {addr : BitVec 64} {s : ToolState}

/-- What a pass that went through has done. -/
theorem toolPass_ok {dir : RwDir} (h : 0 ≤ (toolPass dir F b size addr i s).1) :
    ∃ card mem, RwOk dir (F.card i) s.card s.buf b size addr card mem ∧
      (toolPass dir F b size addr i s).2.card = card ∧
      (toolPass dir F b size addr i s).2.buf = mem ∧
      ((s.out = none ∧ (toolPass dir F b size addr i s).2.out = none) ∨
        ∃ out out', s.out = some out ∧ (toolPass dir F b size addr i s).2.out = some out' ∧
          RwOk .write (F.outfile i) out mem b size (BitVec.ofNat 64 (i * size)) out' mem) := by
  unfold toolPass at h ⊢
  dsimp only at h ⊢
  by_cases hcard : (rwBuffer dir s.card s.buf b size addr (F.card i)).1 < 0
  · rw [if_pos hcard] at h
    exact absurd hcard (not_lt.mpr h)
  · rw [if_neg hcard] at h ⊢
    have hok := rwBuffer_ok (not_lt.mp hcard)
    cases hout : s.out with
    | none =>
        rw [hout] at h
        exact ⟨_, _, hok, rfl, rfl, Or.inl ⟨rfl, rfl⟩⟩
    | some out =>
        rw [hout] at h
        have hw := rwBuffer_ok h
        -- to write a buffer leaves it as it is
        have hbuf := (Prod.mk.inj hw.moved).2
        refine ⟨_, _, hok, rfl, hbuf, Or.inr ⟨out, _, rfl, rfl, ?_⟩⟩
        have hw' := hw
        rw [hbuf] at hw'
        exact hw'

/-- **The rule for the passes**: what one of them leads from the pass `i` to the next, all of them
do. -/
theorem toolPasses_induct {dir : RwDir} {I : ℕ → ToolState → Prop}
    (hstep : ∀ i s, I i s → 0 ≤ (toolPass dir F b size addr i s).1 →
      I (i + 1) (toolPass dir F b size addr i s).2) :
    ∀ (k i : ℕ) (s : ToolState), I i s → (toolPasses dir F b size addr k i s).1 = 0 →
      I (i + k) (toolPasses dir F b size addr k i s).2 := by
  intro k
  induction k with
  | zero => exact fun i s hs _ => hs
  | succ k ih =>
      intro i s hs h
      unfold toolPasses at h ⊢
      dsimp only at h ⊢
      by_cases hfail : (toolPass dir F b size addr i s).1 < 0
      · rw [if_pos hfail] at h
        exact absurd h hfail.ne
      · rw [if_neg hfail] at h ⊢
        have hnext := ih (i + 1) _ (hstep i s hs (not_lt.mp hfail)) h
        rwa [Nat.add_assoc, Nat.add_comm 1 k] at hnext

/-- All calls of a tool go in full. -/
structure ToolFates.Full (F : ToolFates) : Prop where
  infile : ∀ c, (F.infile c).Full
  card : ∀ i c, (F.card i c).Full
  outfile : ∀ i c, (F.outfile i c).Full

theorem toolPass_full {dir : RwDir} (hF : F.Full) (hdev : s.card.regular = false)
    (haddr : addr.toNat + size ≤ 2 ^ 63) (hi : (i + 1) * size ≤ 2 ^ 63) :
    (toolPass dir F b size addr i s).1 = size := by
  have hcard : (rwBuffer dir s.card s.buf b size addr (F.card i)).1 = size :=
    rwBuffer_full (hF.card i) haddr fun _ hregular =>
      absurd (hregular.symm.trans hdev) (by decide)
  unfold toolPass
  dsimp only
  rw [hcard, if_neg (not_lt.mpr (Int.natCast_nonneg size))]
  cases s.out with
  | none => rfl
  | some out =>
      have hle := hi
      rw [Nat.succ_mul] at hle
      have hbase := Nat.mod_le (i * size) (2 ^ 64)
      exact rwBuffer_full (hF.outfile i) (by rw [BitVec.toNat_ofNat]; omega)
        fun hread => absurd hread (by decide)

/-- A tool whose calls all go in full does all its passes, when no position is too large. -/
theorem toolPasses_full {dir : RwDir} (hF : F.Full) (haddr : addr.toNat + size ≤ 2 ^ 63) :
    ∀ (k i : ℕ) (s : ToolState), s.card.regular = false → (i + k) * size ≤ 2 ^ 63 →
      (toolPasses dir F b size addr k i s).1 = 0 := by
  intro k
  induction k with
  | zero => exact fun i s _ _ => rfl
  | succ k ih =>
      intro i s hdev hend
      have hi : (i + 1) * size ≤ 2 ^ 63 :=
        (Nat.mul_le_mul_right size (by omega)).trans hend
      have hpass : (toolPass dir F b size addr i s).1 = size := toolPass_full hF hdev haddr hi
      have hok : ¬ (toolPass dir F b size addr i s).1 < 0 := by
        rw [hpass]
        exact not_lt.mpr (Int.natCast_nonneg size)
      obtain ⟨card, mem, hdone, hcard, -⟩ := toolPass_ok (not_lt.mp hok)
      unfold toolPasses
      dsimp only
      rw [if_neg hok]
      refine ih (i + 1) _ ?_ ((Nat.mul_le_mul_right size (by omega)).trans hend)
      rw [hcard]
      exact hdone.regular.trans hdev

/-- The place of the first chunk of the pass `k` at the address `a`. -/
def firstPlace (size a k : ℕ) : ℕ := if a = 0 ∧ 0 < k then lastChunk size else a

/-- Where the card is between two passes. -/
structure CardAt (size : ℕ) (addr : BitVec 64) (k : ℕ) (f : OpenFile) : Prop where
  regular : f.regular = false
  pos : addr = 0 → f.pos = if k = 0 then 0 else lastChunk size

theorem CardAt.place {k : ℕ} {f : OpenFile} (h : CardAt size addr k f) :
    f.place addr = firstPlace size addr.toNat k := by
  unfold OpenFile.place firstPlace
  by_cases haddr : addr = 0
  · have hzero : addr.toNat = 0 := by rw [haddr]; rfl
    rw [if_neg (not_not.mpr haddr), h.pos haddr]
    rcases Nat.eq_zero_or_pos k with rfl | hk
    · rw [if_pos rfl, if_neg fun h => absurd h.2 (lt_irrefl 0), hzero]
    · rw [if_neg hk.ne', if_pos ⟨hzero, hk⟩]
  · have hne : addr.toNat ≠ 0 := fun hzero => haddr (BitVec.eq_of_toNat_eq hzero)
    rw [if_pos haddr, if_neg fun h => hne h.1]

theorem CardAt.next {dir : RwDir} {fates : ℕ → RwFate} {k : ℕ} {f f' : OpenFile}
    {mem mem' : ByteMem} (h : CardAt size addr k f)
    (hok : RwOk dir fates f mem b size addr f' mem') : CardAt size addr (k + 1) f' where
  regular := hok.regular.trans h.regular
  pos haddr := by
    rw [hok.pos haddr h.regular, if_neg (Nat.succ_ne_zero k), h.pos haddr]
    split
    · next hone =>
        rw [lastChunk_of_le hone, ite_self]
    · rfl

/-- Where byte `j` of the pass `i` is on the card. -/
def ToolFates.place (F : ToolFates) (size a i j : ℕ) : ℕ :=
  bytePlace false (firstPlace size a i) a (F.card i) j

/-- What a pass moves between the card and the buffer. -/
theorem CardAt.moved {dir : RwDir} {k : ℕ} {f f' : OpenFile} {mem mem' : ByteMem}
    (h : CardAt size addr k f) (hok : RwOk dir (F.card k) f mem b size addr f' mem') :
    (f'.bytes, mem') = dir.moved f.bytes (F.place size addr.toNat k) mem b size := by
  rw [hok.moved, h.regular, h.place]
  rfl

/-! ### Chunks -/

/-- The number of bytes of chunk `c`. -/
def chunkSize (size c : ℕ) : ℕ := min (size - c * rwMaxSize) rwMaxSize

theorem lt_of_lt_chunkSize {c j : ℕ} (h : j < chunkSize size c) :
    c * rwMaxSize + j < size ∧ j < rwMaxSize := by
  unfold chunkSize at h
  omega

/-- Every byte is in a chunk. -/
theorem exists_chunk {j : ℕ} (h : j < size) :
    ∃ c k, j = c * rwMaxSize + k ∧ k < chunkSize size c := by
  have hmod := Nat.mod_lt j rwMaxSize_pos
  have hdiv := Nat.div_add_mod j rwMaxSize
  rw [Nat.mul_comm] at hdiv
  refine ⟨j / rwMaxSize, j % rwMaxSize, hdiv.symm, ?_⟩
  unfold chunkSize
  omega

/-- A chunk begins behind those before it. -/
theorem chunk_lt {c c' : ℕ} (h : c < c') : c * rwMaxSize + rwMaxSize ≤ c' * rwMaxSize := by
  rw [← Nat.succ_mul]
  exact Nat.mul_le_mul_right rwMaxSize h

/-- The chunk that goes to where the last one is. -/
def Stray (size a i c : ℕ) : Prop := c = 0 ∧ a = 0 ∧ rwMaxSize < size ∧ 0 < i

instance (size a i c : ℕ) : Decidable (Stray size a i c) :=
  inferInstanceAs (Decidable (_ ∧ _ ∧ _ ∧ _))

/-- Where a byte of a chunk is on the card. -/
theorem ToolFates.place_chunk (F : ToolFates) (a i : ℕ) {c j : ℕ} (hj : j < rwMaxSize) :
    F.place size a i (c * rwMaxSize + j) =
      (if Stray size a i c then lastChunk size else a + c * rwMaxSize) +
        inParts (F.card i c).parts j := by
  have hdiv : (c * rwMaxSize + j) / rwMaxSize = c := by
    rw [Nat.add_comm, Nat.add_mul_div_right j c rwMaxSize_pos, Nat.div_eq_of_lt hj, Nat.zero_add]
  have hmod : (c * rwMaxSize + j) % rwMaxSize = j := by
    rw [Nat.add_comm, Nat.add_mul_mod_self_right, Nat.mod_eq_of_lt hj]
  unfold ToolFates.place bytePlace RwFate.offset
  rw [hdiv, hmod, if_neg (by decide : ¬ false = true)]
  congr 1
  rcases Nat.eq_zero_or_pos c with rfl | hc
  · rw [Nat.zero_mul, Nat.zero_add, if_pos hj]
    unfold firstPlace
    by_cases hback : a = 0 ∧ 0 < i
    · rw [if_pos hback]
      split
      · rfl
      · next hno =>
          have hone : size ≤ rwMaxSize := by
            by_contra hmany
            exact hno ⟨rfl, hback.1, Nat.lt_of_not_le hmany, hback.2⟩
          rw [lastChunk_of_le hone, hback.1]
    · rw [if_neg hback, if_neg fun h => hback ⟨h.2.1, h.2.2.2⟩]
      rfl
  · have hfar := chunk_lt hc
    rw [if_neg (by omega), if_neg fun h => absurd h.1 hc.ne']

/-! ### To the card -/

/-- The pass that a chunk is from in the end: the last one, but the first one for the chunk that
later passes put elsewhere. -/
def placingPass (size a count c : ℕ) : ℕ := if Stray size a (count - 1) c then 0 else count - 1

/-- What `k` passes that write `buf` have made of the card. -/
structure ToCard (F : ToolFates) (b size a k : ℕ) (old buf card : ByteMem) : Prop where
  there : 0 < k → ∀ c j, j < chunkSize size c →
    StaysInParts (F.card (placingPass size a k c) c).parts (chunkSize size c) j →
      card (a + c * rwMaxSize + inParts (F.card (placingPass size a k c) c).parts j) =
        buf (b + (c * rwMaxSize + j))
  kept : ∀ x, x < a ∨ a + size ≤ x → (Stray size a (k - 1) 0 → lastChunk size + rwMaxSize ≤ x) →
    card x = old x

/-- One more pass. -/
theorem ToCard.next {a k : ℕ} {old buf card : ByteMem} (h : ToCard F b size a k old buf card) :
    ToCard F b size a (k + 1) old buf
      (RwDir.write.moved card (F.place size a k) buf b size).1 where
  there _ c j hj hstays := by
    obtain ⟨hinside, hjmax⟩ := lt_of_lt_chunkSize hj
    unfold placingPass at hstays ⊢
    rw [Nat.add_sub_cancel] at hstays ⊢
    by_cases hstray : Stray size a k c
    · -- what an earlier pass has left here
      obtain ⟨rfl, rfl, hmany, hk⟩ := hstray
      have hsame : (if Stray size 0 (k - 1) 0 then 0 else k - 1) = 0 := by
        split
        · rfl
        · next hno =>
            by_contra hpos
            exact hno ⟨rfl, rfl, hmany, Nat.pos_of_ne_zero hpos⟩
      rw [if_pos ⟨rfl, rfl, hmany, hk⟩] at hstays ⊢
      have hold := h.there hk 0 j hj
      unfold placingPass at hold
      rw [hsame] at hold
      have hle := inParts_le (F.card 0 0).parts j
      have hlast := lastChunk_of_lt hmany
      refine (moved_write_out fun i hi => ?_).trans (hold hstays)
      obtain ⟨c, m, rfl, hm⟩ := exists_chunk hi
      rw [F.place_chunk 0 k (lt_of_lt_chunkSize hm).2]
      split
      · omega
      · next hno =>
          have hc : 0 < c := Nat.pos_of_ne_zero fun hzero => hno ⟨hzero, rfl, hmany, hk⟩
          have hfar := chunk_lt hc
          omega
    · rw [if_neg hstray] at hstays ⊢
      have hplace : F.place size a k (c * rwMaxSize + j) =
          a + c * rwMaxSize + inParts (F.card k c).parts j := by
        rw [F.place_chunk a k hjmax, if_neg hstray]
      rw [← hplace]
      refine moved_write_at hinside fun i hji hi => ?_
      obtain ⟨c', m, rfl, hm⟩ := exists_chunk hi
      have hmmax := (lt_of_lt_chunkSize hm).2
      have hcc : c ≤ c' := by
        by_contra hlt
        have hfar := chunk_lt (Nat.lt_of_not_le hlt)
        omega
      rw [hplace, F.place_chunk a k hmmax]
      rcases hcc.eq_or_lt with rfl | hlt
      · -- a later byte of the same chunk
        rw [if_neg hstray]
        have hdiff := hstays m (by omega) hm
        omega
      · have hno : ¬ Stray size a k c' := fun hs => absurd hs.1 (by omega)
        have hfar := chunk_lt hlt
        have hle := inParts_le (F.card k c).parts j
        rw [if_neg hno]
        omega
  kept x hx hnot := by
    refine (moved_write_out fun j hj => ?_).trans (h.kept x hx fun hs => hnot ⟨hs.1, hs.2.1,
      hs.2.2.1, by have hk := hs.2.2.2; omega⟩)
    obtain ⟨c, m, rfl, hm⟩ := exists_chunk hj
    obtain ⟨hinside, hmmax⟩ := lt_of_lt_chunkSize hm
    have hle := inParts_le (F.card k c).parts m
    rw [F.place_chunk a k hmmax]
    split
    · next hs =>
        have hfar := hnot ⟨rfl, hs.2.1, hs.2.2.1, by have hk := hs.2.2.2; omega⟩
        omega
    · omega

/-- **To the card**: the passes of `dma_to_device` after the file was read. -/
theorem toDevice_toCard {infile : OpenFile} {count : ℕ} (hregular : infile.regular = true)
    (hfile : infile.pos = 0) (hdev : s.card.regular = false) (hpos : s.card.pos = 0)
    (h : (testDmaToDevice F b size addr count (some infile) s).1 = 0) :
    ∃ buf : ByteMem, (∀ j < size, buf (b + j) = infile.bytes j) ∧
      ToCard F b size addr.toNat count s.card.bytes buf
        (testDmaToDevice F b size addr count (some infile) s).2.card.bytes := by
  unfold testDmaToDevice at h ⊢
  dsimp only at h ⊢
  by_cases hread : (rwBuffer .read infile s.buf b size 0 F.infile).1 < 0
  · rw [if_pos hread] at h
    exact absurd h hread.ne
  · rw [if_neg hread] at h ⊢
    obtain ⟨hmoved, -, -, -⟩ := rwBuffer_ok (not_lt.mp hread)
    generalize (rwBuffer .read infile s.buf b size 0 F.infile).2.2 = buf at hmoved h ⊢
    -- the buffer is the file
    have hbuf : ∀ j < size, buf (b + j) = infile.bytes j := fun j hj => by
      have hplace : infile.place 0 = 0 := (if_neg (not_not.mpr rfl)).trans hfile
      rw [hplace, hregular] at hmoved
      rw [(Prod.mk.inj hmoved).2]
      exact (moved_read_at hj).trans
        (congrArg infile.bytes (bytePlace_regular.trans (Nat.zero_add j)))
    have hrun := toolPasses_induct
      (I := fun k st => ToCard F b size addr.toNat k s.card.bytes buf st.card.bytes ∧
        st.buf = buf ∧ CardAt size addr k st.card)
      (fun k st hst hpass => ?_) count 0 { s with buf := buf }
      ⟨⟨fun hk => absurd hk (lt_irrefl 0), fun _ _ _ => rfl⟩, rfl, hdev, fun _ => hpos⟩ h
    · rw [Nat.zero_add] at hrun
      exact ⟨buf, hbuf, hrun.1⟩
    · obtain ⟨hcard, hsame, hat⟩ := hst
      obtain ⟨card, mem, hok, hnew, hmem, -⟩ := toolPass_ok hpass
      obtain ⟨hbytes, hkeep⟩ := Prod.mk.inj (hat.moved hok)
      rw [hsame] at hbytes hkeep
      rw [hnew, hmem, hbytes]
      exact ⟨hcard.next, hkeep, hat.next hok⟩

/-- **What is on the card** after a run of `dma_to_device` that returns 0.  A chunk that was
posted in one call, in the pass it is from, is there; one that was not begins with one of its later
bytes.  Nothing else is written, but for what is behind the last chunk at address 0. -/
theorem to_device_bytes {infile : OpenFile} {count : ℕ} (hcount : 0 < count)
    (hregular : infile.regular = true) (hfile : infile.pos = 0)
    (hdev : s.card.regular = false) (hpos : s.card.pos = 0)
    (h : (testDmaToDevice F b size addr count (some infile) s).1 = 0) :
    let card := (testDmaToDevice F b size addr count (some infile) s).2.card.bytes
    let a := addr.toNat
    (∀ c, InOneCall (F.card (placingPass size a count c) c).parts (chunkSize size c) →
      ∀ j < chunkSize size c,
        card (a + c * rwMaxSize + j) = infile.bytes (c * rwMaxSize + j)) ∧
    (∀ c, ¬ InOneCall (F.card (placingPass size a count c) c).parts (chunkSize size c) →
      ∃ j, 0 < j ∧ j < chunkSize size c ∧
        card (a + c * rwMaxSize) = infile.bytes (c * rwMaxSize + j)) ∧
    ∀ x, x < a ∨ a + size ≤ x →
      (Stray size a (count - 1) 0 → lastChunk size + rwMaxSize ≤ x) → card x = s.card.bytes x := by
  obtain ⟨buf, hbuf, hcard⟩ := toDevice_toCard hregular hfile hdev hpos h
  refine ⟨fun c hone j hj => ?_, fun c hmany => ?_, hcard.kept⟩
  · have hthere := hcard.there hcount c j hj (hone.stays hj)
    rw [inParts_of_inOneCall hone hj] at hthere
    exact hthere.trans (hbuf _ (lt_of_lt_chunkSize hj).1)
  · obtain ⟨j, hj, hlt, hzero, hstays⟩ := exists_last_of_not_inOneCall hmany
    have hthere := hcard.there hcount c j hlt hstays
    rw [hzero, Nat.add_zero] at hthere
    exact ⟨j, hj, hlt, hthere.trans (hbuf _ (lt_of_lt_chunkSize hlt).1)⟩

/-- Calls that all go in full: page by page, or with all that was asked for at once. -/
def pageByPage : ToolFates where
  infile _ := ⟨[rwMaxSize], false⟩
  card _ _ := ⟨[4096, rwMaxSize], false⟩
  outfile _ _ := ⟨[rwMaxSize], false⟩

def allAtOnce : ToolFates := { pageByPage with card := fun _ _ => ⟨[rwMaxSize], false⟩ }

/-- A file to read, and a card and a file with nothing in them. -/
def countingFile (size : ℕ) : OpenFile := ⟨true, fun i => BitVec.ofNat 8 (i + 1), size, 0⟩

def emptyTool : ToolState := ⟨⟨false, fun _ => 0, 0, 0⟩, some ⟨true, fun _ => 0, 0, 0⟩, fun _ => 0⟩

theorem to_device_bytes_two :
    (∀ j < chunkSize 2 0, (testDmaToDevice pageByPage 0 2 16 1 (some (countingFile 2))
        emptyTool).2.card.bytes (16 + 0 * rwMaxSize + j) =
      (countingFile 2).bytes (0 * rwMaxSize + j)) ∧
    ∃ j, 0 < j ∧ j < chunkSize 8192 0 ∧
      (testDmaToDevice pageByPage 0 8192 16 1 (some (countingFile 8192))
        emptyTool).2.card.bytes (16 + 0 * rwMaxSize) =
      (countingFile 8192).bytes (0 * rwMaxSize + j) :=
  ⟨(to_device_bytes (by decide) rfl rfl rfl rfl (by decide +kernel)).1 0 (by decide),
    (to_device_bytes (by decide) rfl rfl rfl rfl (by decide +kernel)).2.1 0 (by decide)⟩

/-- **A file that is too long** for the ring: where its calls post no more than the ring has
room for, the card does not begin with the first byte of the file. -/
theorem to_device_too_long {infile : OpenFile} {count : ℕ} (hcount : 0 < count)
    (hregular : infile.regular = true) (hfile : infile.pos = 0)
    (hdev : s.card.regular = false) (hpos : s.card.pos = 0)
    (hring : ∀ i c, ∃ m, (F.card i c).parts.find? (· ≠ 0) = some m ∧
      m ≤ (rngSzDflt - 1) * pageSize)
    (hlong : (rngSzDflt - 1) * pageSize < size)
    (h : (testDmaToDevice F b size addr count (some infile) s).1 = 0) :
    ∃ j, 0 < j ∧ j < size ∧
      (testDmaToDevice F b size addr count (some infile) s).2.card.bytes addr.toNat =
        infile.bytes j := by
  obtain ⟨buf, hbuf, hcard⟩ := toDevice_toCard hregular hfile hdev hpos h
  have hchunk : (rngSzDflt - 1) * pageSize < chunkSize size 0 := by
    have hmax : (rngSzDflt - 1) * pageSize < rwMaxSize := by decide
    unfold chunkSize
    omega
  have hmany : ¬ InOneCall (F.card (placingPass size addr.toNat count 0) 0).parts
      (chunkSize size 0) := fun hone => by
    obtain ⟨m, hfind, hm⟩ := hring (placingPass size addr.toNat count 0) 0
    have hle := hone m hfind
    omega
  obtain ⟨j, hj, hlt, hzero, hstays⟩ := exists_last_of_not_inOneCall hmany
  have hthere := hcard.there hcount 0 j hlt hstays
  have hinside := (lt_of_lt_chunkSize hlt).1
  rw [hzero, Nat.add_zero, Nat.zero_mul, Nat.add_zero, Nat.zero_add] at hthere
  rw [Nat.zero_mul, Nat.zero_add] at hinside
  exact ⟨j, hj, hinside, hthere.trans (hbuf j hinside)⟩

/-- And it does return 0, when all calls go in full and the file is as long as the buffer. -/
theorem to_device_full {infile : OpenFile} {count : ℕ} (hF : F.Full) (hfile : infile.pos = 0)
    (hlong : infile.regular = true → size ≤ infile.size) (hdev : s.card.regular = false)
    (haddr : addr.toNat + size ≤ 2 ^ 63) (hend : count * size ≤ 2 ^ 63) :
    (testDmaToDevice F b size addr count (some infile) s).1 = 0 := by
  have hplace : infile.place 0 = 0 := (if_neg (not_not.mpr rfl)).trans hfile
  have hzero : (0 : BitVec 64).toNat = 0 := rfl
  have hread : (rwBuffer .read infile s.buf b size 0 F.infile).1 = size :=
    rwBuffer_full hF.infile (by rw [hzero]; omega) fun _ hregular => by
      have hsize := hlong hregular
      rw [hplace, hzero]
      omega
  unfold testDmaToDevice
  dsimp only
  rw [hread, if_neg (not_lt.mpr (Int.natCast_nonneg size))]
  exact toolPasses_full hF haddr count 0 _ hdev (by rw [Nat.zero_add]; exact hend)

/-! ### From the card -/

/-- What is true of the file that is written, after `k` passes. -/
structure OutAt (F : ToolFates) (card : ByteMem) (size a k : ℕ) (out : OpenFile) : Prop where
  regular : out.regular = true
  start : k = 0 → out.pos = 0
  reach : k * size ≤ 2 ^ 63 + rwMaxSize
  bytes : ∀ i < k, ∀ j < size, out.bytes (i * size + j) = card (F.place size a i j)

theorem OutAt.next {card file buf mem : ByteMem} {k a : ℕ} {out out' : OpenFile}
    (h : OutAt F card size a k out)
    (hread : mem = (RwDir.read.moved card (F.place size a k) buf b size).2)
    (hok : RwOk .write (F.outfile k) out mem b size (BitVec.ofNat 64 (k * size)) out' file) :
    OutAt F card size a (k + 1) out' := by
  have hsmall := rwMaxSize_lt
  have hreach := h.reach
  have hbase : (BitVec.ofNat 64 (k * size)).toNat = k * size := by
    rw [BitVec.toNat_ofNat]
    omega
  have hsucc : (k + 1) * size = k * size + size := Nat.succ_mul k size
  refine ⟨hok.regular.trans h.regular, fun hk => absurd hk (Nat.succ_ne_zero k), ?_,
    fun i hi j hj => ?_⟩
  · rcases Nat.eq_zero_or_pos size with rfl | hsize
    · rw [Nat.mul_zero]
      exact Nat.zero_le _
    · have hend := hok.reach hsize
      have hlast := (lastChunk_lt hsize).2
      rw [hbase] at hend
      omega
  · have hplace : out.place (BitVec.ofNat 64 (k * size)) = k * size := by
      unfold OpenFile.place
      split
      · exact hbase
      · next hzero =>
          -- only the first pass begins at offset 0
          have hnone : k * size = 0 := by rw [← hbase, not_not.mp hzero]; rfl
          have hk : k = 0 := (Nat.mul_eq_zero.mp hnone).resolve_right (by omega)
          rw [h.start hk, hnone]
    have hmoved : out'.bytes = (RwDir.write.moved out.bytes (k * size + ·) mem b size).1 := by
      have hpair := congrArg Prod.fst hok.moved
      rw [hplace, hbase, h.regular, RwDir.moved_congr fun _ _ => bytePlace_regular] at hpair
      exact hpair
    rw [hmoved]
    rcases Nat.lt_succ_iff_lt_or_eq.mp hi with hold | rfl
    · have hle : (i + 1) * size ≤ k * size := Nat.mul_le_mul_right size hold
      rw [Nat.succ_mul] at hle
      exact (moved_write_out fun m _ => by omega).trans (h.bytes i hold j hj)
    · refine (moved_write_at hj fun m hm _ => by omega).trans ?_
      rw [hread]
      exact moved_read_at hj

/-- **From the card**: the passes of `dma_from_device`. -/
theorem fromDevice_outAt {out : OpenFile} {count : ℕ} (hout : s.out = some out)
    (hregular : out.regular = true) (hstart : out.pos = 0) (hdev : s.card.regular = false)
    (hpos : s.card.pos = 0) (h : (testDmaFromDevice F b size addr count s).1 = 0) :
    ∃ out', (testDmaFromDevice F b size addr count s).2.out = some out' ∧
      OutAt F s.card.bytes size addr.toNat count out' := by
  have hrun := toolPasses_induct
    (I := fun k st => st.card.bytes = s.card.bytes ∧ CardAt size addr k st.card ∧
      ∃ out', st.out = some out' ∧ OutAt F s.card.bytes size addr.toNat k out')
    (fun k st hst hpass => ?_) count 0 s
    ⟨rfl, ⟨hdev, fun _ => hpos⟩, out, hout, hregular, fun _ => hstart, by omega,
      fun i hi => absurd hi (Nat.not_lt_zero i)⟩ h
  · obtain ⟨-, -, out', hout', hat⟩ := hrun
    rw [Nat.zero_add] at hat
    exact ⟨out', hout', hat⟩
  · obtain ⟨hbytes, hcardAt, prev, hprev, hat⟩ := hst
    obtain ⟨card, mem, hok, hcard, -, ⟨hnone, -⟩ | ⟨before, after, hbefore, hafter, hw⟩⟩ :=
      toolPass_ok hpass
    · rw [hprev] at hnone
      exact absurd hnone (Option.some_ne_none prev)
    · obtain ⟨hsame, hmem⟩ := Prod.mk.inj (hcardAt.moved hok)
      rw [hbytes] at hsame hmem
      cases Option.some.inj (hprev.symm.trans hbefore)
      rw [hcard]
      exact ⟨hsame, hcardAt.next hok, after, hafter, hat.next hmem hw⟩

/-- **What is in the file** after a run of `dma_from_device` that returns 0: byte for byte what its
passes have read, each part of a chunk from the chunk's place on. -/
theorem from_device_bytes {out : OpenFile} {count : ℕ} (hout : s.out = some out)
    (hregular : out.regular = true) (hstart : out.pos = 0) (hdev : s.card.regular = false)
    (hpos : s.card.pos = 0) (h : (testDmaFromDevice F b size addr count s).1 = 0) :
    ∃ out', (testDmaFromDevice F b size addr count s).2.out = some out' ∧
      ∀ i < count, ∀ c, ∀ j < chunkSize size c,
        out'.bytes (i * size + (c * rwMaxSize + j)) =
          s.card.bytes ((if Stray size addr.toNat i c then lastChunk size
            else addr.toNat + c * rwMaxSize) + inParts (F.card i c).parts j) := by
  obtain ⟨out', hout', hat⟩ := fromDevice_outAt hout hregular hstart hdev hpos h
  refine ⟨out', hout', fun i hi c j hj => ?_⟩
  obtain ⟨hinside, hmax⟩ := lt_of_lt_chunkSize hj
  rw [hat.bytes i hi _ hinside, F.place_chunk _ i hmax]

theorem from_device_bytes_two :
    ∃ out', (testDmaFromDevice pageByPage 0 8192 0 2 emptyTool).2.out = some out' ∧
      ∀ i < 2, ∀ c, ∀ j < chunkSize 8192 c, out'.bytes (i * 8192 + (c * rwMaxSize + j)) = 0 :=
  from_device_bytes rfl rfl rfl rfl rfl (by decide +kernel)

/-! ### There and back -/

/-- **There and back**: what `dma_to_device` puts on the card `dma_from_device` takes off again,
once for each pass, when the chunks are posted in one call on both ways.  With more than one chunk
at address 0 only the first pass is sure. -/
theorem file_there_and_back {F' : ToolFates} {b' n m : ℕ} {infile out : OpenFile}
    {s' : ToolState} (hn : 0 < n) (hregular : infile.regular = true) (hfile : infile.pos = 0)
    (hdev : s.card.regular = false) (hpos : s.card.pos = 0)
    (hput : (testDmaToDevice F b size addr n (some infile) s).1 = 0)
    (hwhole : ∀ c, InOneCall (F.card (placingPass size addr.toNat n c) c).parts (chunkSize size c))
    (hcard : s'.card.bytes = (testDmaToDevice F b size addr n (some infile) s).2.card.bytes)
    (hdev' : s'.card.regular = false) (hpos' : s'.card.pos = 0)
    (hout : s'.out = some out) (hregular' : out.regular = true) (hstart : out.pos = 0)
    (hget : (testDmaFromDevice F' b' size addr m s').1 = 0) :
    ∃ out', (testDmaFromDevice F' b' size addr m s').2.out = some out' ∧
      ∀ i < m, i = 0 ∨ addr ≠ 0 ∨ size ≤ rwMaxSize →
        (∀ c, InOneCall (F'.card i c).parts (chunkSize size c)) →
          ∀ j < size, out'.bytes (i * size + j) = infile.bytes j := by
  obtain ⟨buf, hbuf, htoCard⟩ := toDevice_toCard hregular hfile hdev hpos hput
  obtain ⟨out', hout', hat⟩ := fromDevice_outAt hout hregular' hstart hdev' hpos' hget
  refine ⟨out', hout', fun i hi hplace hwhole' j hj => ?_⟩
  obtain ⟨c, k, rfl, hk⟩ := exists_chunk hj
  have hkmax := (lt_of_lt_chunkSize hk).2
  have hnot : ¬ Stray size addr.toNat i c := by
    rintro ⟨-, hzero, hmany, hpass⟩
    rcases hplace with hi | haddr | hone
    · exact absurd hi hpass.ne'
    · exact haddr (BitVec.eq_of_toNat_eq hzero)
    · exact absurd hone (Nat.not_le.mpr hmany)
  have hthere := htoCard.there hn c k hk ((hwhole c).stays hk)
  rw [inParts_of_inOneCall (hwhole c) hk] at hthere
  rw [hat.bytes i hi _ hj, F'.place_chunk _ i hkmax, if_neg hnot,
    inParts_of_inOneCall (hwhole' c) hk, hcard, hthere, hbuf _ hj]

theorem inOneCall_of_full {n : ℕ} (h : n ≤ rwMaxSize) : InOneCall [rwMaxSize] n := fun _ hm =>
  h.trans (Option.some.inj hm).le

theorem file_there_and_back_twice :
    ∃ out', (testDmaFromDevice allAtOnce 0 2 16 2 { emptyTool with
        card := { emptyTool.card with
          bytes := (testDmaToDevice allAtOnce 8 2 16 1 (some (countingFile 2))
            emptyTool).2.card.bytes } }).2.out = some out' ∧
      ∀ i < 2, i = 0 ∨ (16 : BitVec 64) ≠ 0 ∨ 2 ≤ rwMaxSize →
        (∀ c, InOneCall (allAtOnce.card i c).parts (chunkSize 2 c)) →
          ∀ j < 2, out'.bytes (i * 2 + j) = (countingFile 2).bytes j :=
  file_there_and_back (n := 1) (by decide) rfl rfl rfl rfl (by decide +kernel)
    (fun _ => inOneCall_of_full (Nat.min_le_right _ _)) rfl rfl rfl rfl rfl rfl (by decide +kernel)

end Passes

end Qdma
