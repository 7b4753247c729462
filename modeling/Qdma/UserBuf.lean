import Qdma.Lib.Balance
import Qdma.Lib.Blocks
import Qdma.Defs

/-!
# The buffer of a read or a write

A read or a write of a queue's character device pins the pages of the user's buffer and makes
a scatter list of them, one entry for each page, that goes into the request.

The list is cut from the buffer exactly (`user_buf_cut`).  What is taken for it is not always
given back: where `map_user_buf_to_sgl` fails behind the allocation of the page array, nothing
frees the array, for `cdev_gen_read_write` returns without `iocb_release`
(`user_buf_released_iff`).

* `mapUserBufToSgl` and `cdevGenReadWrite` are the two functions, with a log of what they take
  and give.
-/

namespace Qdma

open Lib

def efault : ℤ := 14

/-- Arithmetic of `unsigned long`. -/
def u64 (n : ℕ) : ℕ := n % 2 ^ 64

def u64Sub (a b : ℕ) : ℕ := u64 (a + 2 ^ 64 - b)

/-- An `int` that is assigned to an `unsigned int`. -/
def u32OfInt (n : ℤ) : ℕ := (n % 2 ^ 32).toNat

theorem u64_of_lt {n : ℕ} (h : n < 2 ^ 64) : u64 n = n := Nat.mod_eq_of_lt h

theorem u64Sub_of_le {a b : ℕ} (h : b ≤ a) (ha : a < 2 ^ 64) : u64Sub a b = a - b := by
  unfold u64Sub u64
  omega

/-! ## Mapping -/

def offsetInPage (addr : ℕ) : ℕ := addr % pageSize

/-- An address `& PAGE_MASK`. -/
def pageMask (addr : ℕ) : ℕ := addr / pageSize * pageSize

/-- `struct scatterlist` as `sg_set_page` leaves it. -/
structure PageSg where
  page : Option ℕ
  length : ℕ
  offset : ℕ
  deriving DecidableEq

/-- `struct qdma_io_cb`: the scatter table and the page array, where there are. -/
structure QdmaIoCb where
  buf : ℕ
  len : ℕ
  pagesNr : ℕ
  sgl : Option (List PageSg)
  pages : Option (List (Option ℕ))

/-- What is taken: the table, the array, and the page pinned in a slot of the array. -/
inductive UserHeld where
  | sgt
  | pages
  | pin (slot page : ℕ)
  deriving DecidableEq

/-- A call; `fault` says that a slot behind the end of the page array was read. -/
structure UserCall where
  iocb : QdmaIoCb
  log : List (Booking UserHeld)
  fault : Bool

/-- What becomes of the requests of `map_user_buf_to_sgl`: `gup` is what
`get_user_pages_fast` returns, `pinned` the page it finds for a slot. -/
structure UserFates where
  sgAlloc : Bool
  kcalloc : Bool
  gup : ℤ
  pinned : ℕ → ℕ

/-- `pages_nr`. -/
def pagesNr (buf len : ℕ) : ℕ :=
  u32 (u64Sub (u64 (buf + len + pageSize - 1)) (pageMask buf) >>> pageShift)

/-- `sg_free_table`: nothing where there is no table any more. -/
def sgFreeTable (c : UserCall) : UserCall :=
  match c.iocb.sgl with
  | none => c
  | some _ => { c with iocb := { c.iocb with sgl := none }, log := c.log ++ [.give .sgt] }

/-- The loop of `unmap_user_buf`, from slot `i` on: what is put, and whether the array is left. -/
def putLoop (pagesNr : ℕ) : ℕ → List (Option ℕ) → List (Booking UserHeld) × Bool
  | i, [] => ([], decide (i < pagesNr))
  | i, slot :: slots =>
      if pagesNr ≤ i then ([], false)
      else
        match slot with
        | none => ([], false)
        | some page =>
            let r := putLoop pagesNr (i + 1) slots
            (.give (.pin i page) :: r.1, r.2)

def unmapUserBuf (c : UserCall) : UserCall :=
  let c := sgFreeTable c
  match c.iocb.pages with
  | none => c
  | some slots =>
      if c.iocb.pagesNr = 0 then c
      else
        let r := putLoop c.iocb.pagesNr 0 slots
        { iocb := { c.iocb with pagesNr := 0 }
          log := c.log ++ r.1
          fault := c.fault || r.2 }

def iocbRelease (c : UserCall) : UserCall :=
  let c := sgFreeTable c
  match c.iocb.pages with
  | none => { c with iocb := { c.iocb with buf := 0 } }
  | some _ =>
      { c with
        iocb := { c.iocb with pages := none, buf := 0 }
        log := c.log ++ [.give .pages] }

/-- The slots that `get_user_pages_fast` has filled, of `n`. -/
def UserFates.slots (f : UserFates) (n : ℕ) : List (Option ℕ) :=
  (List.range n).map fun i => if i < f.gup.toNat then some (f.pinned i) else none

def UserFates.pins (f : UserFates) : List UserHeld :=
  (List.range f.gup.toNat).map fun i => .pin i (f.pinned i)

/-- The loop that looks for the same page in two slots next to each other. -/
def duplicatePages : List (Option ℕ) → Bool
  | prev :: next :: slots => decide (prev = next) || duplicatePages (next :: slots)
  | _ => false

/-- The loop over `sg_set_page`. -/
def sgSetPages : List (Option ℕ) → ℕ → ℕ → List PageSg
  | [], _, _ => []
  | page :: slots, buf, len =>
      let offset := u32 (offsetInPage buf)
      let nbytes := min (u32 (pageSize - offset)) (u32 len)
      { page := page, length := nbytes, offset := offset } ::
        sgSetPages slots (u64 (buf + nbytes)) (u64Sub len nbytes)

/-- `map_user_buf_to_sgl`, and the call as it leaves it. -/
def mapUserBufToSgl (f : UserFates) (c : UserCall) : ℤ × UserCall :=
  let nr := pagesNr c.iocb.buf c.iocb.len
  if nr = 0 then (-einval, c)
  else if !f.sgAlloc then (-enomem, c)
  else
    let c :=
      { c with
        iocb := { c.iocb with sgl := some [] }
        log := c.log ++ [.take .sgt] }
    if !f.kcalloc then (-enomem, unmapUserBuf c)
    else
      let c :=
        { c with
          iocb := { c.iocb with pages := some (f.slots nr) }
          log := c.log ++ [.take .pages] ++ f.pins.map .take }
      if f.gup < 0 then (f.gup, unmapUserBuf c)
      else if f.gup ≠ nr then
        let c := { c with iocb := { c.iocb with pagesNr := u32OfInt (-efault) } }
        (-efault, unmapUserBuf c)
      else if duplicatePages (f.slots nr) then
        let c := { c with iocb := { c.iocb with pagesNr := nr } }
        (-efault, unmapUserBuf c)
      else
        (0,
          { c with
            iocb :=
              { c.iocb with
                sgl := some (sgSetPages (f.slots nr) c.iocb.buf c.iocb.len)
                pagesNr := nr } })

/-- The call as `cdev_gen_read_write` begins it. -/
def UserCall.init (buf count : ℕ) : UserCall where
  iocb := { buf := buf, len := count, pagesNr := 0, sgl := none, pages := none }
  log := []
  fault := false

/-- `cdev_gen_read_write`: `fpRw` is what the transfer returns. -/
def cdevGenReadWrite (f : UserFates) (xcdev : Bool) (fpRw : Option (QdmaIoCb → ℤ))
    (buf count : ℕ) : ℤ × UserCall :=
  match xcdev, fpRw with
  | false, _ => (-einval, UserCall.init buf count)
  | true, none => (-einval, UserCall.init buf count)
  | true, some rw =>
      let r := mapUserBufToSgl f (UserCall.init buf count)
      if r.1 < 0 then r
      else (rw r.2.iocb, iocbRelease (unmapUserBuf r.2))

/-! ## The pages of the buffer -/

/-- Every request is granted, and no page is next to itself. -/
structure AllPinned (f : UserFates) (buf len : ℕ) : Prop where
  sgAlloc : f.sgAlloc = true
  kcalloc : f.kcalloc = true
  gup : f.gup = pagesNr buf len
  differ : ∀ i, i + 1 < pagesNr buf len → f.pinned i ≠ f.pinned (i + 1)

/-- A scatter list that cuts a buffer at the pages. -/
structure PageCut (buf len : ℕ) (pinned : ℕ → ℕ) (sgl : List PageSg) : Prop where
  /-- As many entries as pages cover the buffer, at least. -/
  least : IsLeast
    {m | ∃ S : Finset ℕ, S.card = m ∧ ∀ a, buf ≤ a → a < buf + len → a / pageSize ∈ S} sgl.length
  page : ∀ i e, sgl[i]? = some e → e.page = some (pinned i)
  /-- Entry `i` is what the buffer has in its page `i`. -/
  part : ∀ i e, sgl[i]? = some e → ∀ a,
    (buf ≤ a ∧ a < buf + len ∧ a / pageSize = buf / pageSize + i) ↔
      ((buf / pageSize + i) * pageSize + e.offset ≤ a ∧
        a < (buf / pageSize + i) * pageSize + e.offset + e.length)
  nonempty : ∀ e ∈ sgl, 0 < e.length
  inPage : ∀ e ∈ sgl, e.offset + e.length ≤ pageSize
  first : (sgl.head?.map (·.offset)) = some (offsetInPage buf)
  later : ∀ e ∈ sgl.tail, e.offset = 0
  total : (sgl.map (·.length)).sum = len

section Cut

theorem pageSize_pos : 0 < pageSize := Nat.succ_pos 4095

/-- The count of pages is the number of blocks: the sum may wrap, the difference does not. -/
theorem pagesNr_eq {buf len : ℕ} (hbuf : buf < 2 ^ 64) (hmax : len < 2 ^ 31) :
    pagesNr buf len = Extent.blocks pageSize buf len := by
  have hsize : pageSize = 4096 := rfl
  have hmod := Nat.mod_lt buf pageSize_pos
  have hdiff : u64Sub (u64 (buf + len + pageSize - 1)) (pageMask buf) =
      buf % pageSize + len + pageSize - 1 := by
    have hdiv := Nat.div_add_mod' buf pageSize
    unfold u64Sub u64 pageMask
    rw [hsize] at hdiv hmod ⊢
    omega
  unfold pagesNr Extent.blocks
  rw [hdiff, Nat.shiftRight_eq_div_pow, u32_of_lt]
  · rfl
  · have hpow : 2 ^ pageShift = 4096 := rfl
    rw [hpow]
    rw [hsize] at hmod ⊢
    omega

/-- An entry for a piece of the buffer. -/
def pieceSg (page : Option ℕ) (e : Extent ℕ) : PageSg where
  page := page
  length := e.len
  offset := e.start % pageSize

/-- **The loop** makes an entry of each piece. -/
theorem sgSetPages_eq : ∀ (slots : List (Option ℕ)) {buf len : ℕ}, 0 < len → len < 2 ^ 32 →
    buf + len ≤ 2 ^ 64 → slots.length = Extent.blocks pageSize buf len →
      sgSetPages slots buf len = List.zipWith pieceSg slots (Extent.cutBlocks pageSize buf len) := by
  intro slots
  induction slots with
  | nil => intro buf len _ _ _ _; rfl
  | cons page slots ih =>
      intro buf len hpos hmax hend hlen
      have hsize : pageSize = 4096 := rfl
      have hmod := Nat.mod_lt buf pageSize_pos
      have hoff : u32 (offsetInPage buf) = buf % pageSize := u32_of_lt (by
        unfold offsetInPage
        omega)
      have hroom : u32 (pageSize - buf % pageSize) = pageSize - buf % pageSize :=
        u32_of_lt (by omega)
      have hfirst : min (pageSize - buf % pageSize) len = Extent.firstLen pageSize buf len := rfl
      rw [List.length_cons] at hlen
      rw [Extent.cutBlocks_pos pageSize_pos hpos, List.zipWith_cons_cons, sgSetPages]
      rw [hoff, hroom, u32_of_lt hmax, hfirst]
      refine congrArg₂ List.cons rfl ?_
      obtain hle | hlt := le_or_gt len (pageSize - buf % pageSize)
      · -- the last entry
        rw [Extent.blocks_of_le pageSize_pos hpos hle] at hlen
        have hnil : slots = [] := List.length_eq_zero_iff.mp (by omega)
        subst hnil
        rfl
      · have hnext : Extent.firstLen pageSize buf len = pageSize - buf % pageSize :=
          Nat.min_eq_left hlt.le
        rw [Extent.blocks_of_lt pageSize_pos hlt] at hlen
        rw [hnext, u64_of_lt (by omega), u64Sub_of_le hlt.le (by omega)]
        exact ih (by omega) (by omega) (by omega) (Nat.succ.inj hlen)

/-- The entry of a piece, by its address. -/
theorem pieceSg_start {buf len i : ℕ} {e : Extent ℕ}
    (he : (Extent.cutBlocks pageSize buf len)[i]? = some e) (page : Option ℕ) :
    (buf / pageSize + i) * pageSize + (pieceSg page e).offset = e.start := by
  obtain ⟨-, -, hpos⟩ := Extent.getElem?_cutBlocks pageSize_pos len buf i he
  obtain ⟨-, -, hblock⟩ :=
    (Extent.cutBlocks_block pageSize_pos he e.start).mpr ⟨le_rfl, Nat.lt_add_of_pos_right hpos⟩
  rw [← hblock]
  exact Nat.div_add_mod' e.start pageSize

/-- The pieces behind the first begin with their page. -/
theorem cutBlocks_start_mod {buf len i : ℕ} {ext : Extent ℕ}
    (hext : (Extent.cutBlocks pageSize buf len)[i + 1]? = some ext) :
    ext.start % pageSize = 0 := by
  obtain ⟨hs, -, -⟩ := Extent.getElem?_cutBlocks pageSize_pos len buf (i + 1) hext
  have hlt : buf < (buf / pageSize + (i + 1)) * pageSize := by
    have hmod := Nat.mod_lt buf pageSize_pos
    have hdiv := Nat.div_add_mod' buf pageSize
    rw [Nat.add_mul, Nat.add_mul, Nat.one_mul]
    omega
  rw [hs, Nat.max_eq_right hlt.le]
  exact Nat.mul_mod_left _ pageSize

theorem map_length_zipWith_pieceSg {slots : List (Option ℕ)} {exts : List (Extent ℕ)}
    (h : exts.length ≤ slots.length) :
    (List.zipWith pieceSg slots exts).map (·.length) = exts.map (·.len) := by
  rw [List.map_zipWith]
  calc List.zipWith (fun _ e => e.len) slots exts
      = (slots.zip exts).map fun p => p.2.len := by
        rw [List.map_zip_eq_zipWith]
        rfl
    _ = ((slots.zip exts).map Prod.snd).map (·.len) := by
        rw [List.map_map]
        rfl
    _ = exts.map (·.len) := by rw [List.map_snd_zip h]

/-- **The list** that is made of the pieces of a buffer. -/
theorem pageCut_zipWith {buf len : ℕ} {pinned : ℕ → ℕ} {slots : List (Option ℕ)} (hpos : 0 < len)
    (hlen : slots.length = Extent.blocks pageSize buf len)
    (hslots : ∀ i page, slots[i]? = some page → page = some (pinned i)) :
    PageCut buf len pinned
      (List.zipWith pieceSg slots (Extent.cutBlocks pageSize buf len)) := by
  have hcut := Extent.length_cutBlocks pageSize_pos hpos buf
  have hentry : ∀ {i : ℕ} {e : PageSg},
      (List.zipWith pieceSg slots (Extent.cutBlocks pageSize buf len))[i]? = some e →
        ∃ page ext, slots[i]? = some page ∧
          (Extent.cutBlocks pageSize buf len)[i]? = some ext ∧ e = pieceSg page ext := by
    intro i e he
    obtain ⟨page, ext, hpage, hext, heq⟩ := List.getElem?_zipWith_eq_some.mp he
    exact ⟨page, ext, hpage, hext, heq.symm⟩
  have hmem : ∀ {e : PageSg}, e ∈ List.zipWith pieceSg slots (Extent.cutBlocks pageSize buf len) →
      ∃ (i : ℕ) (page : Option ℕ) (ext : Extent ℕ), slots[i]? = some page ∧
        (Extent.cutBlocks pageSize buf len)[i]? = some ext ∧ e = pieceSg page ext := by
    intro e he
    obtain ⟨i, hi⟩ := List.mem_iff_getElem?.mp he
    exact ⟨i, hentry hi⟩
  refine ⟨?_, ?_, ?_, ?_, ?_, ?_, ?_, ?_⟩
  · rw [List.length_zipWith, hlen, hcut, Nat.min_self, ← hcut]
    exact Extent.isLeast_cutBlocks pageSize_pos hpos buf
  · intro i e he
    obtain ⟨page, ext, hpage, -, rfl⟩ := hentry he
    exact hslots i page hpage
  · intro i e he a
    obtain ⟨page, ext, -, hext, rfl⟩ := hentry he
    rw [pieceSg_start hext]
    exact Extent.cutBlocks_block pageSize_pos hext a
  · intro e he
    obtain ⟨i, page, ext, -, hext, rfl⟩ := hmem he
    exact (Extent.getElem?_cutBlocks pageSize_pos len buf i hext).2.2
  · intro e he
    obtain ⟨i, page, ext, -, hext, rfl⟩ := hmem he
    have hstart := pieceSg_start hext page
    obtain ⟨-, hend, -⟩ := Extent.getElem?_cutBlocks pageSize_pos len buf i hext
    have hle : ext.start + ext.len ≤ (buf / pageSize + i + 1) * pageSize := by
      rw [hend]
      exact Nat.min_le_right _ _
    rw [Nat.add_mul _ 1, Nat.one_mul] at hle
    have hlength : (pieceSg page ext).length = ext.len := rfl
    omega
  · rw [Extent.cutBlocks_pos pageSize_pos hpos]
    cases slots with
    | nil =>
        rw [Extent.cutBlocks_pos pageSize_pos hpos, List.length_cons] at hcut
        rw [List.length_nil] at hlen
        omega
    | cons page slots => rfl
  · intro e he
    obtain ⟨i, hi⟩ := List.mem_iff_getElem?.mp he
    rw [List.getElem?_tail] at hi
    obtain ⟨page, ext, -, hext, rfl⟩ := hentry hi
    exact cutBlocks_start_mod hext
  · rw [map_length_zipWith_pieceSg (by omega)]
    exact Extent.total_cutBlocks pageSize_pos len buf

/-- Next to each other are only different pages. -/
theorem duplicatePages_iff (slots : List (Option ℕ)) :
    duplicatePages slots = false ↔ slots.IsChain (· ≠ ·) := by
  induction slots with
  | nil => exact ⟨fun _ => List.IsChain.nil, fun _ => rfl⟩
  | cons prev slots ih =>
      cases slots with
      | nil => exact ⟨fun _ => List.IsChain.singleton prev, fun _ => rfl⟩
      | cons next slots =>
          rw [List.isChain_cons_cons, ← ih, duplicatePages, Bool.or_eq_false_iff,
            decide_eq_false_iff_not]

theorem slots_of_all {f : UserFates} {n : ℕ} (h : f.gup = n) :
    f.slots n = (List.range n).map fun i => some (f.pinned i) := by
  refine List.map_congr_left fun i hi => ?_
  have hlt := List.mem_range.mp hi
  exact if_pos (by omega)

theorem duplicatePages_slots {f : UserFates} {n : ℕ} (h : f.gup = n) :
    duplicatePages (f.slots n) = false ↔ ∀ i, i + 1 < n → f.pinned i ≠ f.pinned (i + 1) := by
  rw [duplicatePages_iff, slots_of_all h, List.isChain_map, List.isChain_range]
  refine forall_congr' fun i => ?_
  constructor
  · intro hne hi heq
    exact hne (by omega) (congrArg some heq)
  · intro hne hi heq
    exact hne (by omega) (Option.some.inj heq)

/-- A call that is granted everything. -/
theorem mapUserBuf_all {f : UserFates} {buf len : ℕ} (h : AllPinned f buf len)
    (hnr : pagesNr buf len ≠ 0) :
    mapUserBufToSgl f (UserCall.init buf len) =
      (0,
        { iocb :=
            { buf := buf
              len := len
              pagesNr := pagesNr buf len
              sgl := some (sgSetPages (f.slots (pagesNr buf len)) buf len)
              pages := some (f.slots (pagesNr buf len)) }
          log := [.take .sgt] ++ [.take .pages] ++ f.pins.map .take
          fault := false }) := by
  have hdup := (duplicatePages_slots h.gup).mpr h.differ
  have hgup : ¬ f.gup < 0 := by
    rw [h.gup]
    omega
  unfold mapUserBufToSgl UserCall.init
  dsimp only
  rw [if_neg hnr, h.sgAlloc, if_neg (by decide), h.kcalloc, if_neg (by decide), if_neg hgup,
    if_neg (not_not.mpr h.gup), hdup, if_neg (by decide)]
  rfl

/-- **The user buffer** is cut into pages exactly. -/
theorem user_buf_cut {f : UserFates} {buf len : ℕ} (hpos : 1 ≤ len) (hmax : len < 2 ^ 31)
    (hend : buf + len ≤ 2 ^ 64) (h : AllPinned f buf len) :
    (mapUserBufToSgl f (UserCall.init buf len)).1 = 0 ∧
      ∃ sgl slots,
        (mapUserBufToSgl f (UserCall.init buf len)).2.iocb =
            { buf := buf, len := len, pagesNr := sgl.length, sgl := some sgl, pages := some slots } ∧
          slots.length = sgl.length ∧ pagesNr buf len = sgl.length ∧
            PageCut buf len f.pinned sgl := by
  have hbuf : buf < 2 ^ 64 := by omega
  have hnr := pagesNr_eq hbuf hmax
  have hblocks := Extent.length_cutBlocks pageSize_pos hpos buf
  have hone : pagesNr buf len ≠ 0 := by
    rw [hnr, ← hblocks, Extent.cutBlocks_pos pageSize_pos hpos, List.length_cons]
    omega
  have hslots : (f.slots (pagesNr buf len)).length = Extent.blocks pageSize buf len := by
    rw [slots_of_all h.gup, List.length_map, List.length_range, hnr]
  have hcut : PageCut buf len f.pinned (sgSetPages (f.slots (pagesNr buf len)) buf len) := by
    rw [sgSetPages_eq _ hpos (by omega) hend hslots]
    refine pageCut_zipWith hpos hslots fun i page hi => ?_
    rw [slots_of_all h.gup, List.getElem?_map, Option.map_eq_some_iff] at hi
    obtain ⟨j, hj, rfl⟩ := hi
    obtain ⟨_, hji⟩ := List.getElem?_eq_some_iff.mp hj
    rw [List.getElem_range] at hji
    rw [hji]
  have hlen : (sgSetPages (f.slots (pagesNr buf len)) buf len).length = pagesNr buf len := by
    rw [sgSetPages_eq _ hpos (by omega) hend hslots, List.length_zipWith, hslots, hblocks,
      Nat.min_self, hnr]
  rw [mapUserBuf_all h hone]
  refine ⟨rfl, _, f.slots (pagesNr buf len), ?_, ?_, hlen.symm, hcut⟩
  · rw [hlen]
  · rw [hlen, hslots, hnr]

end Cut

/-! ## What is given back -/

/-- Everything is given back, once, and the scan stays in the page array. -/
structure UserReleased (c : UserCall) : Prop where
  given : GivenBack c.log
  inside : c.fault = false

section Released

variable {f : UserFates}

theorem putLoop_cons (pagesNr i : ℕ) (slot : Option ℕ) (slots : List (Option ℕ)) :
    putLoop pagesNr i (slot :: slots) =
      if pagesNr ≤ i then ([], false)
      else
        match slot with
        | none => ([], false)
        | some page =>
            (.give (.pin i page) :: (putLoop pagesNr (i + 1) slots).1,
              (putLoop pagesNr (i + 1) slots).2) := rfl

/-- **The scan** puts the pinned pages and stops: at the end of the array, or at the first
slot with no page. -/
theorem putLoop_slots {k pagesNr : ℕ} (hk : k ≤ pagesNr) : ∀ (m i : ℕ), i ≤ k → k ≤ i + m →
    k < i + m ∨ pagesNr ≤ i + m →
      putLoop pagesNr i ((List.range' i m).map fun j => if j < k then some (f.pinned j) else none) =
        ((List.range' i (k - i)).map fun j => .give (.pin j (f.pinned j)), false) := by
  intro m
  induction m with
  | zero =>
      intro i hik hki hstop
      have hend : k - i = 0 := by omega
      rw [hend]
      refine Prod.ext rfl (decide_eq_false ?_)
      omega
  | succ m ih =>
      intro i hik hki hstop
      rw [List.range'_succ, List.map_cons, putLoop_cons]
      by_cases hP : pagesNr ≤ i
      · have hend : k - i = 0 := by omega
        rw [if_pos hP, hend]
        rfl
      · rw [if_neg hP]
        by_cases hpin : i < k
        · have hnext : k - i = (k - (i + 1)) + 1 := by omega
          rw [if_pos hpin, hnext, List.range'_succ]
          dsimp only
          rw [ih (i + 1) (by omega) (by omega) (by omega)]
          rfl
        · have hend : k - i = 0 := by omega
          rw [if_neg hpin, hend]
          rfl

/-- The log of a call that has pinned pages, without the array. -/
def pinnedLog (f : UserFates) : List (Booking UserHeld) :=
  [.take .sgt] ++ [.take .pages] ++ f.pins.map .take ++ [.give .sgt] ++ f.pins.map .give

/-- **The unmapping** after pages were pinned. -/
theorem unmapUserBuf_pinned {c : UserCall} {n : ℕ} {sgl : List PageSg}
    (hsgl : c.iocb.sgl = some sgl) (hpages : c.iocb.pages = some (f.slots n))
    (hlog : c.log = [.take .sgt] ++ [.take .pages] ++ f.pins.map .take)
    (hpos : c.iocb.pagesNr ≠ 0) (hgup : f.gup.toNat ≤ n) (hk : f.gup.toNat ≤ c.iocb.pagesNr)
    (hstop : f.gup.toNat < n ∨ c.iocb.pagesNr ≤ n) :
    unmapUserBuf c =
      { iocb := { c.iocb with sgl := none, pagesNr := 0 }
        log := pinnedLog f
        fault := c.fault } := by
  have hput := putLoop_slots (f := f) hk n 0 (Nat.zero_le _) (by omega) (by omega)
  have hslots : f.slots n =
      (List.range' 0 n).map fun j => if j < f.gup.toNat then some (f.pinned j) else none := by
    unfold UserFates.slots
    rw [List.range_eq_range']
  have hpins : f.pins.map Booking.give =
      (List.range' 0 (f.gup.toNat - 0)).map fun j => Booking.give (.pin j (f.pinned j)) := by
    unfold UserFates.pins
    rw [List.map_map, List.range_eq_range']
    rfl
  unfold unmapUserBuf sgFreeTable
  rw [hsgl]
  dsimp only
  rw [hpages]
  dsimp only
  rw [if_neg hpos, hslots, hput, ← hpins, hlog, Bool.or_false]
  rfl

theorem unmapUserBuf_log {c : UserCall} {n : ℕ} {sgl : List PageSg}
    (hsgl : c.iocb.sgl = some sgl) (hpages : c.iocb.pages = some (f.slots n))
    (hlog : c.log = [.take .sgt] ++ [.take .pages] ++ f.pins.map .take)
    (hpos : c.iocb.pagesNr ≠ 0) (hgup : f.gup.toNat ≤ n) (hk : f.gup.toNat ≤ c.iocb.pagesNr)
    (hstop : f.gup.toNat < n ∨ c.iocb.pagesNr ≤ n) : (unmapUserBuf c).log = pinnedLog f := by
  rw [unmapUserBuf_pinned hsgl hpages hlog hpos hgup hk hstop]

/-- The array is still out. -/
theorem not_givenBack_pinnedLog : ¬ GivenBack (pinnedLog f) := by
  intro h
  have hpages := h.settled .pages
  have hpin : f.pins.count .pages = 0 := by
    refine List.count_eq_zero.mpr fun hmem => ?_
    obtain ⟨i, -, hi⟩ := List.mem_map.mp hmem
    cases hi
  unfold pinnedLog at hpages
  simp only [given_append, taken_append, given_map_take, taken_map_take, given_map_give,
    taken_map_give, taken_take, given_give, given_take, taken_give, hpin] at hpages
  exact absurd hpages (by decide)

/-- With the array nothing is. -/
theorem givenBack_released : GivenBack (pinnedLog f ++ [.give .pages]) := by
  have hperm : (UserHeld.sgt :: .pages :: f.pins).Perm (.sgt :: (f.pins ++ [.pages])) :=
    (List.perm_append_singleton UserHeld.pages f.pins).symm.cons _
  have hgiven := GivenBack.of_perm hperm
  rw [List.map_cons, List.map_cons, List.map_cons, List.map_append] at hgiven
  unfold pinnedLog
  simpa only [List.append_assoc, List.cons_append, List.nil_append, List.map_cons,
    List.map_nil] using hgiven

theorem released_of_pinned {c : UserCall} {n : ℕ} {sgl : List PageSg}
    (hsgl : c.iocb.sgl = some sgl) (hpages : c.iocb.pages = some (f.slots n))
    (hlog : c.log = [.take .sgt] ++ [.take .pages] ++ f.pins.map .take)
    (hpos : c.iocb.pagesNr ≠ 0) (hgup : f.gup.toNat ≤ n) (hk : f.gup.toNat ≤ c.iocb.pagesNr)
    (hstop : f.gup.toNat < n ∨ c.iocb.pagesNr ≤ n) (hfault : c.fault = false) :
    UserReleased (iocbRelease (unmapUserBuf c)) := by
  rw [unmapUserBuf_pinned hsgl hpages hlog hpos hgup hk hstop]
  unfold iocbRelease sgFreeTable
  dsimp only
  rw [hpages]
  exact ⟨givenBack_released, hfault⟩

/-- An error number as an `unsigned int` is past the end of every page array. -/
theorem pagesNr_lt {buf len : ℕ} (hbuf : buf < 2 ^ 64) (hmax : len < 2 ^ 31) :
    pagesNr buf len < u32OfInt (-efault) := by
  have hsize : pageSize = 4096 := rfl
  have herr : u32OfInt (-efault) = 4294967282 := by
    unfold u32OfInt efault
    omega
  have hmod := Nat.mod_lt buf pageSize_pos
  rw [pagesNr_eq hbuf hmax, herr]
  unfold Extent.blocks
  rw [hsize] at hmod ⊢
  omega

variable {buf len : ℕ}

/-- **The mapping** fails with nothing taken for long, fails with the array left, or is done. -/
theorem mapUserBuf_cases (hbuf : buf < 2 ^ 64) (hmax : len < 2 ^ 31)
    (hgup : f.gup ≤ pagesNr buf len) :
    ((mapUserBufToSgl f (UserCall.init buf len)).1 < 0 ∧
        UserReleased (mapUserBufToSgl f (UserCall.init buf len)).2 ∧
          (pagesNr buf len = 0 ∨ f.sgAlloc = false ∨ f.kcalloc = false)) ∨
      ((mapUserBufToSgl f (UserCall.init buf len)).1 < 0 ∧
        (mapUserBufToSgl f (UserCall.init buf len)).2.log = pinnedLog f ∧
          (pagesNr buf len ≠ 0 ∧ f.sgAlloc = true ∧ f.kcalloc = true) ∧
            ¬ AllPinned f buf len) ∨
        (pagesNr buf len ≠ 0 ∧ AllPinned f buf len) := by
  have hneg : (-einval : ℤ) < 0 ∧ (-enomem : ℤ) < 0 ∧ (-efault : ℤ) < 0 := by decide
  have hfails : (!false) = true := rfl
  have herr := pagesNr_lt hbuf hmax
  generalize hcall : mapUserBufToSgl f (UserCall.init buf len) = r
  unfold mapUserBufToSgl UserCall.init at hcall
  dsimp only at hcall
  generalize u32OfInt (-efault) = errNr at herr hcall
  by_cases hnr : pagesNr buf len = 0
  · rw [if_pos hnr] at hcall
    subst hcall
    exact Or.inl ⟨hneg.1, ⟨GivenBack.nil, rfl⟩, Or.inl hnr⟩
  cases hsg : f.sgAlloc with
  | false =>
      rw [if_neg hnr, hsg, if_pos hfails] at hcall
      subst hcall
      exact Or.inl ⟨hneg.2.1, ⟨GivenBack.nil, rfl⟩, Or.inr (Or.inl rfl)⟩
  | true =>
      cases hk : f.kcalloc with
      | false =>
          rw [if_neg hnr, hsg, hk, if_neg (by decide), if_pos hfails] at hcall
          subst hcall
          exact Or.inl ⟨hneg.2.1, ⟨GivenBack.of_perm (List.Perm.refl [UserHeld.sgt]), rfl⟩,
            Or.inr (Or.inr rfl)⟩
      | true =>
          by_cases hall : AllPinned f buf len
          · exact Or.inr (Or.inr ⟨hnr, hall⟩)
          refine Or.inr (Or.inl ?_)
          have hgranted : pagesNr buf len ≠ 0 ∧ true = true ∧ true = true := ⟨hnr, rfl, rfl⟩
          rw [if_neg hnr, hsg, hk, if_neg (by decide), if_neg (by decide)] at hcall
          by_cases hfail : f.gup < 0
          · -- no page is pinned, and `pages_nr` is still 0
            have hpins : f.pins = [] := by
              unfold UserFates.pins
              rw [Int.toNat_of_nonpos hfail.le]
              rfl
            rw [if_pos hfail] at hcall
            subst hcall
            refine ⟨hfail, ?_, hgranted, hall⟩
            unfold pinnedLog
            rw [hpins]
            rfl
          rw [if_neg hfail] at hcall
          by_cases hpart : f.gup ≠ pagesNr buf len
          · rw [if_pos hpart] at hcall
            subst hcall
            refine ⟨hneg.2.2, ?_, hgranted, hall⟩
            have hpos : errNr ≠ 0 := by omega
            have hlt : f.gup.toNat < pagesNr buf len := by omega
            exact unmapUserBuf_log rfl rfl rfl hpos hlt.le (hlt.trans herr).le (Or.inl hlt)
          rw [if_neg hpart] at hcall
          have heq := not_not.mp hpart
          by_cases hdup : duplicatePages (f.slots (pagesNr buf len)) = true
          · rw [if_pos hdup] at hcall
            subst hcall
            refine ⟨hneg.2.2, ?_, hgranted, hall⟩
            have hle : f.gup.toNat ≤ pagesNr buf len := by omega
            exact unmapUserBuf_log rfl rfl rfl hnr hle hle (Or.inr le_rfl)
          · have hdiffer := (duplicatePages_slots heq).mp (Bool.eq_false_iff.mpr hdup)
            exact absurd ⟨hsg, hk, heq, hdiffer⟩ hall

/-- A call that comes to the buffer. -/
theorem cdevGenReadWrite_some (f : UserFates) (rw : QdmaIoCb → ℤ) (buf count : ℕ) :
    cdevGenReadWrite f true (some rw) buf count =
      if (mapUserBufToSgl f (UserCall.init buf count)).1 < 0 then
        mapUserBufToSgl f (UserCall.init buf count)
      else
        (rw (mapUserBufToSgl f (UserCall.init buf count)).2.iocb,
          iocbRelease (unmapUserBuf (mapUserBufToSgl f (UserCall.init buf count)).2)) := rfl

/-- **A read or a write** gives everything back unless it fails behind the allocation of the
page array. -/
theorem user_buf_released_iff (f : UserFates) (xcdev : Bool) (fpRw : Option (QdmaIoCb → ℤ))
    {buf count : ℕ} (hbuf : buf < 2 ^ 64) (hmax : count < 2 ^ 31)
    (hgup : f.gup ≤ pagesNr buf count) :
    UserReleased (cdevGenReadWrite f xcdev fpRw buf count).2 ↔
      (xcdev = true → fpRw.isSome = true → pagesNr buf count ≠ 0 → f.sgAlloc = true →
        f.kcalloc = true → AllPinned f buf count) := by
  cases xcdev with
  | false => exact ⟨fun _ hx => (nomatch hx), fun _ => ⟨GivenBack.nil, rfl⟩⟩
  | true =>
      cases fpRw with
      | none => exact ⟨fun _ _ hrw => (nomatch hrw), fun _ => ⟨GivenBack.nil, rfl⟩⟩
      | some rw =>
          rw [cdevGenReadWrite_some]
          obtain ⟨hrv, hdone, hnone⟩ | ⟨hrv, hlog, ⟨hnr, hsg, hk⟩, hnot⟩ | ⟨hnr, hall⟩ :=
            mapUserBuf_cases hbuf hmax hgup
          · rw [if_pos hrv]
            refine ⟨fun _ _ _ hnr hsg hk => ?_, fun _ => hdone⟩
            obtain hzero | hoff | hoff := hnone
            · exact absurd hzero hnr
            · rw [hoff] at hsg
              cases hsg
            · rw [hoff] at hk
              cases hk
          · rw [if_pos hrv]
            refine ⟨fun h => ?_, fun h => absurd (h rfl rfl hnr hsg hk) hnot⟩
            have hgiven := h.given
            rw [hlog] at hgiven
            exact absurd hgiven not_givenBack_pinnedLog
          · refine ⟨fun _ _ _ _ _ _ => hall, fun _ => ?_⟩
            have hgupn := hall.gup
            have hle : f.gup.toNat ≤ pagesNr buf count := by omega
            rw [mapUserBuf_all hall hnr, if_neg (lt_irrefl 0)]
            exact released_of_pinned rfl rfl rfl hnr hle hle (Or.inr le_rfl) rfl

end Released

/-! ## A small buffer -/

/-- 5000 bytes at 4000, on three pages that are all pinned. -/
def threePages : UserFates where
  sgAlloc := true
  kcalloc := true
  gup := 3
  pinned i := i

theorem allPinned_threePages : AllPinned threePages 4000 5000 where
  sgAlloc := rfl
  kcalloc := rfl
  gup := by decide +kernel
  differ i _ := Nat.ne_of_lt (Nat.lt_succ_self i)

theorem user_buf_cut_threePages :
    (mapUserBufToSgl threePages (UserCall.init 4000 5000)).1 = 0 ∧
      ∃ sgl slots,
        (mapUserBufToSgl threePages (UserCall.init 4000 5000)).2.iocb =
            { buf := 4000
              len := 5000
              pagesNr := sgl.length
              sgl := some sgl
              pages := some slots } ∧
          slots.length = sgl.length ∧ pagesNr 4000 5000 = sgl.length ∧
            PageCut 4000 5000 threePages.pinned sgl :=
  user_buf_cut (by decide) (by decide) (by decide) allPinned_threePages

theorem user_buf_released_threePages :
    UserReleased (cdevGenReadWrite threePages true (some fun iocb => iocb.len) 4000 5000).2 :=
  (user_buf_released_iff threePages true (some fun iocb => iocb.len) (by decide) (by decide)
    (by decide +kernel)).mpr fun _ _ _ _ _ => allPinned_threePages

/-- No page of the same buffer can be pinned: the page array is not freed. -/
theorem user_buf_array_left :
    (taken (cdevGenReadWrite { threePages with gup := -efault } true
        (some fun iocb => iocb.len) 4000 5000).2.log .pages = 1 ∧
      given (cdevGenReadWrite { threePages with gup := -efault } true
        (some fun iocb => iocb.len) 4000 5000).2.log .pages = 0) ∧
      ¬ ∀ (f : UserFates) (xcdev : Bool) (fpRw : Option (QdmaIoCb → ℤ)) (buf count : ℕ),
        buf < 2 ^ 64 → count < 2 ^ 31 → f.gup ≤ pagesNr buf count →
          UserReleased (cdevGenReadWrite f xcdev fpRw buf count).2 := by
  refine ⟨by decide +kernel, fun hall => ?_⟩
  have hreleased := hall { threePages with gup := -efault } true (some fun iocb => iocb.len)
    4000 5000 (by decide) (by decide) (by decide +kernel)
  have hout := hreleased.given.settled .pages
  have hleft : given (cdevGenReadWrite { threePages with gup := -efault } true
      (some fun iocb => iocb.len) 4000 5000).2.log .pages ≠
        taken (cdevGenReadWrite { threePages with gup := -efault } true
          (some fun iocb => iocb.len) 4000 5000).2.log .pages := by decide +kernel
  exact hleft hout

end Qdma
