import Qdma.DumpText
import Qdma.Lib.ByteMem

/-!
# The messages of `dmactl`

`dmactl` and the driver talk in generic netlink messages: a header of 20 bytes and a row of
attributes, each with its length and its type before its value.  The tool builds a request with
`xnl_msg_set_hdr` and one `xnl_msg_add_int_attr` or `xnl_msg_add_str_attr` for each attribute,
and takes an answer apart with `recv_attrs`.

* A message is a `ByteMem`, offsets counted from the header; only the first bytes of it, those
  received, may be read, and a run that wants another ends in `AttrEnd.outside`.
* `recvAttrs k` is `recv_attrs` for at most `k` steps of its loop.
* `AttrsFit` is what a message must look like for the loop to end and to stay inside
  (`recv_attrs_inside_iff`): nothing checks it.
* `AttrItem` is an attribute as the caller gives it.  What was put into a message comes out of
  it again (`attrs_round_trip`).
-/

namespace Qdma

open Lib

/-! ## Layout -/

def nlmsgHdrlen : ℕ := 16
def genlHdrlen : ℕ := 4
def nlaHdrlen : ℕ := 4

/-- `NLMSG_LENGTH`. -/
def nlmsgLength (len : ℕ) : ℕ := len + nlmsgHdrlen

/-- `NLMSG_ALIGN` and `NLA_ALIGN`: `(len + 3) & ~3`. -/
def nlaAlign (len : ℕ) : ℕ := (len + 3) / 4 * 4

/-- `sizeof(struct xnl_hdr)`; the attributes begin here. -/
def xnlHdrSize : ℕ := 20

def nlmFRequest : ℕ := 1
def nlmsgError : ℕ := 2

def xnlAttrGenmsg : ℕ := 0
def xnlAttrDrvInfo : ℕ := 1
def xnlAttrMax : ℕ := 19

/-- `sizeof(xcmd->drv_str)`. -/
def drvStrSize : ℕ := 128

/-- The fields of `struct nlmsghdr` and `struct genlmsghdr`. -/
def nlmsgLen (m : ByteMem) : ℕ := m.get32 0
def nlmsgType (m : ByteMem) : ℕ := m.get16 4

/-- The fields of the `struct nlattr` at `p`. -/
def nlaLen (m : ByteMem) (p : ℕ) : ℕ := m.get16 p
def nlaType (m : ByteMem) (p : ℕ) : ℕ := m.get16 (p + 2)

/-! ## Receiving -/

/-- What `recv` leaves in the buffer, which is cleared before. -/
def recvMem (bytes : List (BitVec 8)) : ByteMem := fun i => bytes.getD i 0

/-- `NLMSG_OK`. -/
def nlmsgOk (m : ByteMem) (rv : ℕ) : Bool :=
  decide (nlmsgHdrlen ≤ rv ∧ nlmsgHdrlen ≤ nlmsgLen m ∧ nlmsgLen m ≤ rv)

/-- `xnl_recv` with a buffer of `dlen` bytes, when `sent` arrives, or nothing (`recv` fails): the
result and the bytes received. -/
def xnlRecv (dlen : ℕ) (sent : Option (List (BitVec 8))) : ℤ × List (BitVec 8) :=
  match sent with
  | none => (-1, [])
  | some sent =>
      let bytes := sent.take dlen
      let m := recvMem bytes
      if nlmsgOk m bytes.length = false ∧ bytes.length ≤ xnlHdrSize then (-1, bytes)
      else if nlmsgType m = nlmsgError then (-1, bytes)
      else (0, bytes)

/-- What `recv_attrs` writes: the fields of `struct xcmd_info`, and the lines it prints. -/
@[ext] structure AttrInfo where
  attrMask : BitVec 32
  attrs : ℕ → BitVec 32
  drvStr : List (BitVec 8)
  printed : List (List (BitVec 8))

/-- How `recv_attrs` ends: it returns, or it wants a byte past those it may read. -/
inductive AttrEnd where
  | returned (rv : ℤ) (x : AttrInfo)
  | outside

/-- The place in the message and the length that is left, as `recv_attrs` counts it. -/
structure AttrCur where
  p : ℕ
  maxlen : ℤ
  x : AttrInfo

/-- The value of the attribute at `p`, by its type; `n` bytes may be read. -/
def recvAttrValue (m : ByteMem) (n p : ℕ) (x : AttrInfo) : Option AttrInfo :=
  if nlaType m p = xnlAttrGenmsg then
    (m.strIn (n - (p + 4)) (p + 4)).map fun s => { x with printed := x.printed ++ [s] }
  else if nlaType m p = xnlAttrDrvInfo then
    (m.strnIn drvStrSize (n - (p + 4)) (p + 4)).map fun s => { x with drvStr := s }
  else if p + 8 ≤ n then
    some { x with
      attrs := Function.update x.attrs (nlaType m p) (BitVec.ofNat 32 (m.get32 (p + 4))) }
  else none

/-- The body of the loop: the next place, or the end. -/
def recvAttrsBody (m : ByteMem) (n : ℕ) (c : AttrCur) : AttrCur ⊕ AttrEnd :=
  if n < c.p + 4 then .inr .outside
  else if xnlAttrMax ≤ nlaType m c.p then .inr (.returned (-einval) c.x)
  else
    match recvAttrValue m n c.p
        { c.x with attrMask := c.x.attrMask ||| 1#32 <<< nlaType m c.p } with
    | none => .inr .outside
    | some x => .inl ⟨c.p + nlaAlign (nlaLen m c.p), c.maxlen - nlaAlign (nlaLen m c.p), x⟩

/-- The loop for at most `k` steps. -/
def recvAttrsLoop (m : ByteMem) (n : ℕ) : ℕ → AttrCur → Option AttrEnd
  | 0, c => if 0 < c.maxlen then none else some (.returned 0 c.x)
  | k + 1, c =>
      if 0 < c.maxlen then
        match recvAttrsBody m n c with
        | .inl c => recvAttrsLoop m n k c
        | .inr e => some e
      else some (.returned 0 c.x)

/-- `maxlen` before the loop: the declared length less the header, in an `int`. -/
def attrsMaxlen (m : ByteMem) : ℤ :=
  (BitVec.ofNat 32 (nlmsgLen m) - BitVec.ofNat 32 (nlmsgLength genlHdrlen)).toInt

/-- `recv_attrs`, of whose loop at most `k` steps are made; `n` bytes may be read. -/
def recvAttrs (k : ℕ) (m : ByteMem) (n : ℕ) (x : AttrInfo) : Option AttrEnd :=
  if n < 4 then some .outside
  else recvAttrsLoop m n k ⟨xnlHdrSize, attrsMaxlen m, { x with attrMask := 0 }⟩

/-! ## Staying inside -/

/-- `recv_attrs` ends after at most one step for 4 bytes and reads nothing but what was
received. -/
def RecvInside (bytes : List (BitVec 8)) (x : AttrInfo) : Prop :=
  ∃ k rv y, 4 * k ≤ bytes.length ∧
    recvAttrs k (recvMem bytes) bytes.length x = some (.returned rv y)

/-- The value of the attribute at `p` ends before `n`: a number has 4 bytes, a text ends with a
0, and of the driver's text no more than 128 bytes are wanted. -/
def ValueFits (m : ByteMem) (n p : ℕ) : Prop :=
  if nlaType m p = xnlAttrGenmsg then ∃ i, p + 4 + i < n ∧ m (p + 4 + i) = 0
  else if nlaType m p = xnlAttrDrvInfo then
    p + 4 + drvStrSize ≤ n ∨ ∃ i, p + 4 + i < n ∧ m (p + 4 + i) = 0
  else p + 8 ≤ n

/-- From `p` on, the bytes are a row of attributes up to `stop`, where the declared length ends:
each has its header and its value inside the first `n` bytes and a length that is not 0.  The
row may end early with a type that is unknown. -/
inductive AttrsFit (m : ByteMem) (n : ℕ) (stop : ℤ) : ℕ → Prop
  | done {p : ℕ} (hstop : stop ≤ p) : AttrsFit m n stop p
  | unknown {p : ℕ} (hhdr : p + 4 ≤ n) (htype : xnlAttrMax ≤ nlaType m p) : AttrsFit m n stop p
  | attr {p : ℕ} (hhdr : p + 4 ≤ n) (htype : nlaType m p < xnlAttrMax) (hlen : 0 < nlaLen m p)
      (hvalue : ValueFits m n p) (hrest : AttrsFit m n stop (p + nlaAlign (nlaLen m p))) :
      AttrsFit m n stop p

theorem nlaAlign_pos {len : ℕ} (h : 0 < len) : 4 ≤ nlaAlign len := by
  unfold nlaAlign
  omega

theorem nlaAlign_zero : nlaAlign 0 = 0 := rfl

theorem recvAttrValue_isSome_iff {m : ByteMem} {n p : ℕ} (x : AttrInfo) (hp : p + 4 ≤ n) :
    (recvAttrValue m n p x).isSome = true ↔ ValueFits m n p := by
  have hroom : ∀ i, i < n - (p + 4) ↔ p + 4 + i < n := fun i => by omega
  unfold recvAttrValue ValueFits
  by_cases hgen : nlaType m p = xnlAttrGenmsg
  · rw [if_pos hgen, if_pos hgen, Option.isSome_map, ByteMem.strIn_isSome_iff]
    simp only [hroom]
  · rw [if_neg hgen, if_neg hgen]
    by_cases hdrv : nlaType m p = xnlAttrDrvInfo
    · rw [if_pos hdrv, if_pos hdrv, Option.isSome_map, ByteMem.strnIn_isSome_iff]
      simp only [hroom]
      exact or_congr_left (by omega)
    · rw [if_neg hdrv, if_neg hdrv]
      by_cases hnum : p + 8 ≤ n
      · rw [if_pos hnum]
        exact iff_of_true rfl hnum
      · rw [if_neg hnum]
        exact iff_of_false Bool.false_ne_true hnum

/-- A step of the loop at an attribute whose value fits. -/
theorem recvAttrsBody_attr {m : ByteMem} {n : ℕ} {c : AttrCur} (hhdr : c.p + 4 ≤ n)
    (htype : nlaType m c.p < xnlAttrMax) {x : AttrInfo}
    (hx : recvAttrValue m n c.p
      { c.x with attrMask := c.x.attrMask ||| 1#32 <<< nlaType m c.p } = some x) :
    recvAttrsBody m n c =
      .inl ⟨c.p + nlaAlign (nlaLen m c.p), c.maxlen - nlaAlign (nlaLen m c.p), x⟩ := by
  unfold recvAttrsBody
  rw [if_neg (by omega), if_neg (by omega), hx]

theorem recvAttrsBody_unknown {m : ByteMem} {n : ℕ} {c : AttrCur} (hhdr : c.p + 4 ≤ n)
    (htype : xnlAttrMax ≤ nlaType m c.p) :
    recvAttrsBody m n c = .inr (.returned (-einval) c.x) := by
  unfold recvAttrsBody
  rw [if_neg (by omega), if_pos htype]

theorem recvAttrsLoop_done {m : ByteMem} {n : ℕ} {c : AttrCur} (h : c.maxlen ≤ 0) (k : ℕ) :
    recvAttrsLoop m n k c = some (.returned 0 c.x) := by
  cases k with
  | zero => exact if_neg (by omega)
  | succ k => exact if_neg (by omega)

/-- Each step of a row that fits moves on by 4 bytes or more, and begins inside. -/
theorem AttrsFit.ends {m : ByteMem} {n : ℕ} {stop : ℤ} {p : ℕ} (h : AttrsFit m n stop p)
    (x : AttrInfo) :
    ∃ k rv y, (k = 0 ∨ p + 4 * k ≤ n) ∧
      recvAttrsLoop m n k ⟨p, stop - p, x⟩ = some (.returned rv y) := by
  induction h generalizing x with
  | done hstop => exact ⟨0, 0, x, Or.inl rfl, recvAttrsLoop_done (by dsimp only; omega) 0⟩
  | @unknown p hhdr htype =>
      by_cases hmore : 0 < stop - (p : ℤ)
      · refine ⟨1, -einval, x, Or.inr (by omega), ?_⟩
        rw [recvAttrsLoop, if_pos hmore, recvAttrsBody_unknown hhdr htype]
      · exact ⟨0, 0, x, Or.inl rfl, recvAttrsLoop_done (by dsimp only; omega) 0⟩
  | @attr p hhdr htype hlen hvalue hrest ih =>
      by_cases hmore : 0 < stop - (p : ℤ)
      · obtain ⟨x', hx'⟩ := Option.isSome_iff_exists.mp
          ((recvAttrValue_isSome_iff { x with attrMask := x.attrMask ||| 1#32 <<< nlaType m p }
            hhdr).mpr hvalue)
        obtain ⟨k, rv, y, hk, hrun⟩ := ih x'
        have hstep := nlaAlign_pos hlen
        have hleft : stop - ((p + nlaAlign (nlaLen m p) : ℕ) : ℤ) =
            stop - p - nlaAlign (nlaLen m p) := by omega
        rw [hleft] at hrun
        refine ⟨k + 1, rv, y, Or.inr (by omega), ?_⟩
        rw [recvAttrsLoop, if_pos hmore, recvAttrsBody_attr hhdr htype hx']
        exact hrun
      · exact ⟨0, 0, x, Or.inl rfl, recvAttrsLoop_done (by dsimp only; omega) 0⟩

/-- A length of 0 leaves the loop where it is. -/
theorem recvAttrsLoop_stuck {m : ByteMem} {n : ℕ} {p : ℕ} {maxlen : ℤ} (hmore : 0 < maxlen)
    (htype : nlaType m p < xnlAttrMax) (hlen : nlaLen m p = 0) (k : ℕ) (x : AttrInfo) {rv : ℤ}
    {y : AttrInfo} : recvAttrsLoop m n k ⟨p, maxlen, x⟩ ≠ some (.returned rv y) := by
  induction k generalizing x with
  | zero => simp [recvAttrsLoop, hmore]
  | succ k ih =>
      rw [recvAttrsLoop, if_pos hmore]
      unfold recvAttrsBody
      dsimp only
      rw [hlen, nlaAlign_zero]
      by_cases hhdr : n < p + 4
      · rw [if_pos hhdr]
        simp
      · rw [if_neg hhdr, if_neg (by omega)]
        cases recvAttrValue m n p { x with attrMask := x.attrMask ||| 1#32 <<< nlaType m p } with
        | none => simp
        | some x' => simpa using ih x'

/-- A run that returns has met nothing but attributes that fit. -/
theorem AttrsFit.of_ends {m : ByteMem} {n : ℕ} {stop : ℤ} {k p : ℕ} {x : AttrInfo} {rv : ℤ}
    {y : AttrInfo} (h : recvAttrsLoop m n k ⟨p, stop - p, x⟩ = some (.returned rv y)) :
    AttrsFit m n stop p := by
  induction k generalizing p x with
  | zero =>
      by_cases hmore : 0 < stop - (p : ℤ)
      · rw [recvAttrsLoop, if_pos hmore] at h
        exact absurd h.symm (Option.some_ne_none _)
      · exact .done (by omega)
  | succ k ih =>
      by_cases hmore : 0 < stop - (p : ℤ)
      · by_cases hhdr : n < p + 4
        · rw [recvAttrsLoop, if_pos hmore, recvAttrsBody, if_pos hhdr] at h
          simp at h
        · by_cases htype : xnlAttrMax ≤ nlaType m p
          · exact .unknown (by omega) htype
          · have hstuck : nlaLen m p ≠ 0 := fun hlen =>
              recvAttrsLoop_stuck hmore (by omega) hlen (k + 1) x h
            cases hx : recvAttrValue m n p
                { x with attrMask := x.attrMask ||| 1#32 <<< nlaType m p } with
            | none =>
                rw [recvAttrsLoop, if_pos hmore, recvAttrsBody, if_neg hhdr, if_neg htype, hx] at h
                simp at h
            | some x' =>
                have hfits : ValueFits m n p :=
                  (recvAttrValue_isSome_iff _ (by omega)).mp (by rw [hx]; rfl)
                have hleft : stop - ((p + nlaAlign (nlaLen m p) : ℕ) : ℤ) =
                    stop - p - nlaAlign (nlaLen m p) := by omega
                rw [recvAttrsLoop, if_pos hmore,
                  recvAttrsBody_attr (c := ⟨p, stop - p, x⟩) (by dsimp only; omega)
                    (by dsimp only; omega) hx] at h
                dsimp only at h
                rw [← hleft] at h
                exact .attr (by omega) (by omega) (by omega) hfits (ih h)
      · exact .done (by omega)

/-- A message that is accepted has its length. -/
theorem xnlRecv_accepted {dlen : ℕ} {sent : Option (List (BitVec 8))} {bytes : List (BitVec 8)}
    (h : xnlRecv dlen sent = (0, bytes)) : nlmsgHdrlen ≤ bytes.length := by
  cases sent with
  | none => simp [xnlRecv] at h
  | some sent =>
      unfold xnlRecv at h
      dsimp only at h
      split at h
      · simp at h
      · rename_i hok
        split at h
        · simp at h
        · simp only [Prod.mk.injEq, true_and] at h
          rw [h] at hok
          by_cases hshort : bytes.length ≤ xnlHdrSize
          · have hgood : nlmsgOk (recvMem bytes) bytes.length = true := by
              simpa [hshort] using hok
            exact (of_decide_eq_true hgood).1
          · unfold xnlHdrSize at hshort
            unfold nlmsgHdrlen
            omega

/-- **The loop of `recv_attrs`** ends within a step for 4 bytes and stays inside the message
exactly when the bytes are a row of attributes that fit. -/
theorem recv_attrs_inside_iff {dlen : ℕ} {sent : Option (List (BitVec 8))}
    {bytes : List (BitVec 8)} (hrecv : xnlRecv dlen sent = (0, bytes)) (x : AttrInfo) :
    RecvInside bytes x ↔
      AttrsFit (recvMem bytes) bytes.length (xnlHdrSize + attrsMaxlen (recvMem bytes))
        xnlHdrSize := by
  have hlen : 16 ≤ bytes.length := xnlRecv_accepted hrecv
  have hrun : ∀ k, recvAttrs k (recvMem bytes) bytes.length x =
      recvAttrsLoop (recvMem bytes) bytes.length k ⟨xnlHdrSize,
        xnlHdrSize + attrsMaxlen (recvMem bytes) - (xnlHdrSize : ℕ), { x with attrMask := 0 }⟩ := by
    intro k
    unfold recvAttrs
    rw [if_neg (by omega), add_sub_cancel_left]
  constructor
  · rintro ⟨k, rv, y, _, h⟩
    rw [hrun] at h
    exact AttrsFit.of_ends h
  · intro hfit
    obtain ⟨k, rv, y, hk, h⟩ := hfit.ends { x with attrMask := 0 }
    exact ⟨k, rv, y, by omega, (hrun k).trans h⟩

def blankAttrInfo : AttrInfo := ⟨0, fun _ => 0, [], []⟩

/-- An answer of 28 bytes whose only attribute has the type and the length given. -/
def oneAttrMsg (len type : BitVec 8) : List (BitVec 8) :=
  [28, 0, 0, 0, 16, 0, 0, 0, 0, 0, 0, 0, 0, 0, 0, 0, 1, 0, 0, 0, len, 0, type, 0, 5, 0, 0, 0]

theorem recv_attrs_inside_one : RecvInside (oneAttrMsg 8 12) blankAttrInfo :=
  (recv_attrs_inside_iff (show xnlRecv 256 (some (oneAttrMsg 8 12)) = (0, oneAttrMsg 8 12) by
    decide +kernel) blankAttrInfo).mpr
    (.attr (by decide) (by decide) (by decide) (show ValueFits _ _ _ by
      unfold ValueFits
      rw [if_neg (by decide), if_neg (by decide)]
      decide) (.done (by decide)))

/-- An attribute with length 0 is read again and again. -/
theorem recv_attrs_zero_len :
    ¬ ∀ (dlen : ℕ) (sent : Option (List (BitVec 8))) (bytes : List (BitVec 8)) (x : AttrInfo),
      xnlRecv dlen sent = (0, bytes) → RecvInside bytes x := by
  intro hall
  obtain ⟨k, rv, y, _, h⟩ := hall 256 (some (oneAttrMsg 0 12)) (oneAttrMsg 0 12) blankAttrInfo
    (by decide +kernel)
  unfold recvAttrs at h
  rw [if_neg (by decide)] at h
  exact recvAttrsLoop_stuck (by decide) (by decide) (by decide) k _ h

/-! ## Building a message -/

/-- `xnl_msg_set_hdr`; the process id is `getpid()`. -/
def xnlMsgSetHdr (m : ByteMem) (family op pid : ℕ) : ByteMem :=
  ((((m.put32 0 (nlmsgLength genlHdrlen)).put16 4 family).put16 6 nlmFRequest).put32 12 pid).put8
    16 (BitVec.ofNat 8 op)

/-- `hdr->n.nlmsg_len += NLMSG_ALIGN(attr->nla_len)`. -/
def growMsg (m : ByteMem) (a : ℕ) : ByteMem := m.put32 0 (nlmsgLen m + nlaAlign (nlaLen m a))

/-- `xnl_msg_add_int_attr`. -/
def xnlMsgAddIntAttr (m : ByteMem) (type : ℕ) (v : BitVec 32) : ByteMem :=
  let a := nlmsgLen m
  growMsg (((m.put16 (a + 2) type).put16 a (4 + nlaHdrlen)).put32 (a + 4) v.toNat) a

/-- `xnl_msg_add_str_attr`; `strcpy` writes the text and its end. -/
def xnlMsgAddStrAttr (m : ByteMem) (type : ℕ) (s : List (BitVec 8)) : ByteMem :=
  let a := nlmsgLen m
  growMsg (((m.put16 (a + 2) type).put16 a (s.length + 1 + nlaHdrlen)).putBytes (a + 4) (s ++ [0])) a

/-- An attribute as the caller gives it: a number or a text. -/
inductive AttrItem where
  | int (type : ℕ) (v : BitVec 32)
  | str (type : ℕ) (s : List (BitVec 8))

namespace AttrItem

def type : AttrItem → ℕ
  | int t _ => t
  | str t _ => t

/-- `nla_len`. -/
def len : AttrItem → ℕ
  | int _ _ => 4 + nlaHdrlen
  | str _ s => s.length + 1 + nlaHdrlen

/-- A number goes with one of the types of numbers, a text with one of the two others; a text has
no 0 in it. -/
def Valid : AttrItem → Prop
  | int t _ => xnlAttrDrvInfo < t ∧ t < xnlAttrMax
  | str t s => t ≤ xnlAttrDrvInfo ∧ ∀ b ∈ s, b ≠ 0

def add (m : ByteMem) : AttrItem → ByteMem
  | int t v => xnlMsgAddIntAttr m t v
  | str t s => xnlMsgAddStrAttr m t s

/-- What the receiver should make of it. -/
def apply (x : AttrInfo) : AttrItem → AttrInfo
  | int t v => { x with
      attrMask := x.attrMask ||| 1#32 <<< t, attrs := Function.update x.attrs t v }
  | str t s =>
      if t = xnlAttrGenmsg then
        { x with attrMask := x.attrMask ||| 1#32 <<< t, printed := x.printed ++ [s] }
      else
        { x with
          attrMask := x.attrMask ||| 1#32 <<< t, drvStr := ByteMem.padded drvStrSize s }

/-- The attribute lies at `a`. -/
def At (m : ByteMem) (a : ℕ) : AttrItem → Prop
  | int t v => nlaLen m a = 4 + nlaHdrlen ∧ nlaType m a = t ∧ m.get32 (a + 4) = v.toNat
  | str t s => nlaLen m a = s.length + 1 + nlaHdrlen ∧ nlaType m a = t ∧ m.TextAt (a + 4) s

end AttrItem

/-- The bytes a row of attributes takes. -/
def itemsLen : List AttrItem → ℕ
  | [] => 0
  | it :: l => nlaAlign it.len + itemsLen l

/-- The attributes lie one after the other from `a` on. -/
def ItemsAt (m : ByteMem) : ℕ → List AttrItem → Prop
  | _, [] => True
  | a, it :: l => it.At m a ∧ ItemsAt m (a + nlaAlign it.len) l

/-- A message with the attributes of a list, in its order. -/
def buildMsg (m : ByteMem) (family op pid : ℕ) (items : List AttrItem) : ByteMem :=
  items.foldl AttrItem.add (xnlMsgSetHdr m family op pid)

/-- `m` and `m'` have the same bytes from `a` to `b`. -/
def SameBytes (m m' : ByteMem) (a b : ℕ) : Prop := ∀ i, a ≤ i → i < b → m i = m' i

theorem le_nlaAlign (len : ℕ) : len ≤ nlaAlign len := by
  unfold nlaAlign
  omega

theorem AttrItem.len_int (t : ℕ) (v : BitVec 32) : (int t v).len = 8 := rfl

theorem AttrItem.len_str (t : ℕ) (s : List (BitVec 8)) : (str t s).len = s.length + 5 := rfl

theorem AttrItem.len_ge (it : AttrItem) : 4 < it.len := by
  cases it with
  | int t v => rw [len_int]; omega
  | str t s => rw [len_str]; omega

theorem itemsLen_append (l l' : List AttrItem) : itemsLen (l ++ l') = itemsLen l + itemsLen l' := by
  induction l with
  | nil => exact (Nat.zero_add _).symm
  | cons it l ih => rw [List.cons_append, itemsLen, itemsLen, ih, Nat.add_assoc]

namespace AttrItem

variable {m m' : ByteMem} {a : ℕ} {it : AttrItem}

theorem At.len (h : it.At m a) : nlaLen m a = it.len := by
  cases it with
  | int t v => exact h.1
  | str t s => exact h.1

theorem At.type (h : it.At m a) : nlaType m a = it.type := by
  cases it with
  | int t v => exact h.2.1
  | str t s => exact h.2.1

/-- Only the bytes of an attribute matter to it. -/
theorem At.congr (h : it.At m a) (hsame : SameBytes m m' a (a + it.len)) : it.At m' a := by
  have hlen := it.len_ge
  have h₁ : nlaLen m a = nlaLen m' a :=
    ByteMem.get16_congr fun i h₁ h₂ => hsame i h₁ (by omega)
  have h₂ : nlaType m a = nlaType m' a :=
    ByteMem.get16_congr fun i h₁ h₂ => hsame i (by omega) (by omega)
  cases it with
  | int t v =>
      have h₃ : m.get32 (a + 4) = m'.get32 (a + 4) :=
        ByteMem.get32_congr fun i h₁ h₂ => hsame i (by omega) (by rw [len_int]; omega)
      exact ⟨h₁.symm.trans h.1, h₂.symm.trans h.2.1, h₃.symm.trans h.2.2⟩
  | str t s =>
      refine ⟨h₁.symm.trans h.1, h₂.symm.trans h.2.1, h.2.2.congr fun i h₁ h₂ => ?_⟩
      refine hsame i (by omega) ?_
      rw [len_str]
      omega

end AttrItem

theorem ItemsAt.congr {m m' : ByteMem} {a : ℕ} {l : List AttrItem} (h : ItemsAt m a l)
    (hsame : SameBytes m m' a (a + itemsLen l)) : ItemsAt m' a l := by
  induction l generalizing a with
  | nil => exact trivial
  | cons it l ih =>
      have hle := le_nlaAlign it.len
      rw [itemsLen] at hsame
      exact ⟨h.1.congr fun i h₁ h₂ => hsame i h₁ (by omega),
        ih h.2 fun i h₁ h₂ => hsame i (by omega) (by omega)⟩

theorem ItemsAt.append_singleton {m : ByteMem} {a : ℕ} {l : List AttrItem} {it : AttrItem}
    (h : ItemsAt m a l) (hit : it.At m (a + itemsLen l)) : ItemsAt m a (l ++ [it]) := by
  induction l generalizing a with
  | nil => exact ⟨hit, trivial⟩
  | cons hd l ih =>
      rw [itemsLen, ← Nat.add_assoc] at hit
      exact ⟨h.1, ih h.2 hit⟩

/-- A message whose attributes are those of `l`. -/
structure MsgOf (m : ByteMem) (l : List AttrItem) : Prop where
  len : nlmsgLen m = xnlHdrSize + itemsLen l
  items : ItemsAt m xnlHdrSize l

theorem msgOf_setHdr (m : ByteMem) (family op pid : ℕ) :
    MsgOf (xnlMsgSetHdr m family op pid) [] := by
  refine ⟨?_, trivial⟩
  have hkept : nlmsgLen (xnlMsgSetHdr m family op pid) =
      (m.put32 0 (nlmsgLength genlHdrlen)).get32 0 := by
    refine ByteMem.get32_congr fun i _ hi => ?_
    unfold xnlMsgSetHdr
    rw [ByteMem.put8_ne _ (by omega), ByteMem.put32_apart _ (by omega),
      ByteMem.put16_apart _ (by omega), ByteMem.put16_apart _ (by omega)]
  rw [hkept, ByteMem.get32_put32]
  rfl

/-- What adding an attribute does: it stands where the message ended, the length is more by its
aligned length, and nothing between the header and the old end has changed. -/
structure Added (m m' : ByteMem) (it : AttrItem) : Prop where
  at_end : it.At m' (nlmsgLen m)
  len : nlmsgLen m' = (nlmsgLen m + nlaAlign it.len) % 2 ^ 32
  same : SameBytes m m' xnlHdrSize (nlmsgLen m)

/-- The length is written last, and far from the attribute. -/
theorem added_growMsg {m m' : ByteMem} {it : AttrItem} (ha : xnlHdrSize ≤ nlmsgLen m)
    (hat : it.At m' (nlmsgLen m)) (hsame : ∀ i, i < nlmsgLen m → m' i = m i) :
    Added m (growMsg m' (nlmsgLen m)) it := by
  have hkept : ∀ i, 4 ≤ i → growMsg m' (nlmsgLen m) i = m' i := fun i hi =>
    ByteMem.put32_apart _ (Or.inr (by omega))
  have hlen : nlmsgLen m' = nlmsgLen m :=
    ByteMem.get32_congr fun i _ hi => hsame i (by unfold xnlHdrSize at ha; omega)
  refine ⟨hat.congr fun i hi _ => (hkept i ?_).symm, ?_, fun i h₁ h₂ => ?_⟩
  · unfold xnlHdrSize at ha
    omega
  · rw [← hat.len, ← hlen]
    exact ByteMem.get32_put32 _ _
  · rw [hkept i (by unfold xnlHdrSize at h₁; omega), hsame i h₂]

theorem AttrItem.added {m : ByteMem} {it : AttrItem} (hv : it.Valid)
    (ha : xnlHdrSize ≤ nlmsgLen m) (hlen : it.len < 2 ^ 16) : Added m (it.add m) it := by
  cases it with
  | int t v =>
      refine added_growMsg ha ⟨?_, ?_, ?_⟩ fun i hi => ?_
      · have hkept := ByteMem.get16_congr (m := ((m.put16 (nlmsgLen m + 2) t).put16 (nlmsgLen m)
          (4 + nlaHdrlen)).put32 (nlmsgLen m + 4) v.toNat) (a := nlmsgLen m)
          fun i _ hi => ByteMem.put32_apart v.toNat (Or.inl (by omega))
        exact hkept.trans (ByteMem.get16_put16 _ _)
      · have hkept := ByteMem.get16_congr (m := ((m.put16 (nlmsgLen m + 2) t).put16 (nlmsgLen m)
          (4 + nlaHdrlen)).put32 (nlmsgLen m + 4) v.toNat) (a := nlmsgLen m + 2)
          fun i h₁ h₂ => (ByteMem.put32_apart v.toNat (Or.inl (by omega))).trans
            (ByteMem.put16_apart _ (Or.inr (by omega)))
        refine hkept.trans ((ByteMem.get16_put16 _ _).trans (Nat.mod_eq_of_lt ?_))
        have htype := hv.2
        unfold xnlAttrMax at htype
        omega
      · exact (ByteMem.get32_put32 _ _).trans (Nat.mod_eq_of_lt v.isLt)
      · rw [ByteMem.put32_apart _ (by omega), ByteMem.put16_apart _ (by omega),
          ByteMem.put16_apart _ (by omega)]
  | str t s =>
      refine added_growMsg ha ⟨?_, ?_, ?_⟩ fun i hi => ?_
      · have hkept := ByteMem.get16_congr (m := ((m.put16 (nlmsgLen m + 2) t).put16 (nlmsgLen m)
          (s.length + 1 + nlaHdrlen)).putBytes (nlmsgLen m + 4) (s ++ [0])) (a := nlmsgLen m)
          fun i _ hi => ByteMem.putBytes_apart (s ++ [0]) (Or.inl (by omega))
        exact hkept.trans ((ByteMem.get16_put16 _ _).trans (Nat.mod_eq_of_lt hlen))
      · have hkept := ByteMem.get16_congr (m := ((m.put16 (nlmsgLen m + 2) t).put16 (nlmsgLen m)
          (s.length + 1 + nlaHdrlen)).putBytes (nlmsgLen m + 4) (s ++ [0])) (a := nlmsgLen m + 2)
          fun i h₁ h₂ => (ByteMem.putBytes_apart (s ++ [0]) (Or.inl (by omega))).trans
            (ByteMem.put16_apart _ (Or.inr (by omega)))
        refine hkept.trans ((ByteMem.get16_put16 _ _).trans (Nat.mod_eq_of_lt ?_))
        have htype := hv.1
        unfold xnlAttrDrvInfo at htype
        omega
      · exact ByteMem.textAt_putBytes _ hv.2
      · rw [ByteMem.putBytes_apart _ (by omega), ByteMem.put16_apart _ (by omega),
          ByteMem.put16_apart _ (by omega)]

theorem MsgOf.add {m : ByteMem} {l : List AttrItem} {it : AttrItem} (h : MsgOf m l)
    (hv : it.Valid) (hfit : xnlHdrSize + itemsLen (l ++ [it]) < 2 ^ 16) :
    MsgOf (it.add m) (l ++ [it]) := by
  have hle := le_nlaAlign it.len
  rw [itemsLen_append, itemsLen, itemsLen] at hfit
  have hlen := h.len
  have hadded : Added m (it.add m) it := it.added hv (by omega) (by omega)
  refine ⟨?_, ?_⟩
  · have hlt : xnlHdrSize + itemsLen l + nlaAlign it.len < 2 ^ 32 := by omega
    rw [hadded.len, hlen, itemsLen_append, itemsLen, itemsLen, Nat.mod_eq_of_lt hlt]
    exact Nat.add_assoc _ _ _
  · have hend := hadded.at_end
    rw [hlen] at hend
    refine ItemsAt.append_singleton (h.items.congr fun i h₁ h₂ => ?_) hend
    exact hadded.same i h₁ (by omega)

theorem MsgOf.addAll {m : ByteMem} {l items : List AttrItem} (h : MsgOf m l)
    (hv : ∀ it ∈ items, it.Valid) (hfit : xnlHdrSize + itemsLen (l ++ items) < 2 ^ 16) :
    MsgOf (items.foldl AttrItem.add m) (l ++ items) := by
  induction items generalizing m l with
  | nil => rwa [List.append_nil]
  | cons it items ih =>
      have hsplit : l ++ it :: items = (l ++ [it]) ++ items := by simp
      rw [hsplit] at hfit ⊢
      have hmore := itemsLen_append (l ++ [it]) items
      exact ih (h.add (hv it (List.mem_cons_self ..)) (by omega))
        (fun it' h' => hv it' (List.mem_cons_of_mem _ h')) hfit

/-! ## The round trip -/

namespace AttrItem

/-- The number given for type `t`. -/
def number (t : ℕ) : AttrItem → Option (BitVec 32)
  | int t' v => if t' = t then some v else none
  | str _ _ => none

/-- The text given for type `t`. -/
def text (t : ℕ) : AttrItem → Option (List (BitVec 8))
  | int _ _ => none
  | str t' s => if t' = t then some s else none

theorem type_lt {it : AttrItem} (hv : it.Valid) : it.type < xnlAttrMax := by
  cases it with
  | int t v => exact hv.2
  | str t s => exact lt_of_le_of_lt hv.1 (by decide)

theorem apply_genmsg (x : AttrInfo) (s : List (BitVec 8)) :
    (str xnlAttrGenmsg s).apply x =
      { x with attrMask := x.attrMask ||| 1#32 <<< xnlAttrGenmsg, printed := x.printed ++ [s] } := by
  unfold apply
  exact if_pos rfl

theorem apply_drvInfo (x : AttrInfo) (s : List (BitVec 8)) :
    (str xnlAttrDrvInfo s).apply x =
      { x with
        attrMask := x.attrMask ||| 1#32 <<< xnlAttrDrvInfo
        drvStr := ByteMem.padded drvStrSize s } := by
  unfold apply
  exact if_neg (by decide)

/-- A text has one of two types. -/
theorem str_type {t : ℕ} {s : List (BitVec 8)} (hv : (str t s).Valid) :
    t = xnlAttrGenmsg ∨ t = xnlAttrDrvInfo := by
  have hle : t ≤ 1 := hv.1
  change t = 0 ∨ t = 1
  omega

/-- The receiver finds at `p` what lies there. -/
theorem recvAttrValue_at {m : ByteMem} {n p : ℕ} {it : AttrItem} (h : it.At m p) (hv : it.Valid)
    (hroom : p + it.len ≤ n) (x : AttrInfo) :
    recvAttrValue m n p { x with attrMask := x.attrMask ||| 1#32 <<< it.type } =
      some (it.apply x) := by
  have htype := h.type
  unfold recvAttrValue
  rw [htype]
  cases it with
  | int t v =>
      have hlow : 1 < t := hv.1
      have hne : (int t v).type ≠ xnlAttrGenmsg := by
        change t ≠ 0
        omega
      have hne' : (int t v).type ≠ xnlAttrDrvInfo := by
        change t ≠ 1
        omega
      have hval : BitVec.ofNat 32 (m.get32 (p + 4)) = v := by
        rw [h.2.2, BitVec.ofNat_toNat, BitVec.setWidth_eq]
      rw [len_int] at hroom
      rw [if_neg hne, if_neg hne', if_pos hroom, hval]
      rfl
  | str t s =>
      rw [len_str] at hroom
      obtain rfl | rfl := str_type hv
      · rw [if_pos (show (str xnlAttrGenmsg s).type = xnlAttrGenmsg from rfl), apply_genmsg,
          ByteMem.strIn_of_textAt h.2.2 (by omega)]
        rfl
      · rw [if_neg (show (str xnlAttrDrvInfo s).type ≠ xnlAttrGenmsg from (by decide : 1 ≠ 0)),
          if_pos (show (str xnlAttrDrvInfo s).type = xnlAttrDrvInfo from rfl), apply_drvInfo,
          ByteMem.strnIn_of_textAt drvStrSize h.2.2 (by omega)]
        rfl

end AttrItem

/-- One step of the loop for one attribute. -/
theorem recvAttrsLoop_items {m : ByteMem} {n a : ℕ} {items : List AttrItem}
    (h : ItemsAt m a items) (hv : ∀ it ∈ items, it.Valid) (hroom : a + itemsLen items ≤ n)
    (x : AttrInfo) :
    recvAttrsLoop m n items.length ⟨a, itemsLen items, x⟩ =
      some (.returned 0 (items.foldl AttrItem.apply x)) := by
  induction items generalizing a x with
  | nil => exact recvAttrsLoop_done (le_of_eq rfl) 0
  | cons it items ih =>
      obtain ⟨hit, hrest⟩ := h
      have hvit := hv it (List.mem_cons_self ..)
      have hle := le_nlaAlign it.len
      have hge := it.len_ge
      rw [itemsLen] at hroom ⊢
      have hmore : (0 : ℤ) < ((nlaAlign it.len + itemsLen items : ℕ) : ℤ) := by omega
      have htype : nlaType m a < xnlAttrMax := by
        rw [hit.type]
        exact it.type_lt hvit
      have hvalue := AttrItem.recvAttrValue_at (n := n) hit hvit (by omega) x
      rw [← hit.type] at hvalue
      have hstep := recvAttrsBody_attr (n := n)
        (c := ⟨a, ((nlaAlign it.len + itemsLen items : ℕ) : ℤ), x⟩) (by dsimp only; omega) htype
        hvalue
      have hleft : ((nlaAlign it.len + itemsLen items : ℕ) : ℤ) - (nlaAlign it.len : ℕ) =
          (itemsLen items : ℕ) := by omega
      rw [List.length_cons, recvAttrsLoop, if_pos hmore, hstep, List.foldl_cons]
      dsimp only
      rw [hit.len, hleft]
      exact ih hrest (fun it' h' => hv it' (List.mem_cons_of_mem _ h')) (by omega) _

/-- What has become of the record `x` when the attributes have been read. -/
structure Decoded (x y : AttrInfo) (items : List AttrItem) : Prop where
  attrs : ∀ t, y.attrs t = (items.filterMap (AttrItem.number t)).getLast?.getD (x.attrs t)
  attrMask : ∀ t, y.attrMask.getLsbD t = true ↔ ∃ it ∈ items, it.type = t
  printed : y.printed = x.printed ++ items.filterMap (AttrItem.text xnlAttrGenmsg)
  drvStr : y.drvStr = ((items.filterMap (AttrItem.text xnlAttrDrvInfo)).getLast?.map
    (ByteMem.padded drvStrSize)).getD x.drvStr

theorem decoded_nil (x : AttrInfo) : Decoded x { x with attrMask := 0 } [] :=
  ⟨fun _ => rfl, fun t => by simp, (List.append_nil _).symm, rfl⟩

theorem getLsbD_or_bit (b : BitVec 32) {k : ℕ} (hk : k < 32) (t : ℕ) :
    (b ||| 1#32 <<< k).getLsbD t = true ↔ b.getLsbD t = true ∨ k = t := by
  rw [BitVec.getLsbD_or, Bool.or_eq_true, BitVec.getLsbD_shiftLeft, BitVec.getLsbD_one]
  refine or_congr_right ?_
  simp only [Bool.and_eq_true, decide_eq_true_eq, Bool.not_eq_true', decide_eq_false_iff_not]
  omega

theorem Decoded.apply {x y : AttrInfo} {items : List AttrItem} (h : Decoded x y items)
    {it : AttrItem} (hv : it.Valid) : Decoded x (it.apply y) (items ++ [it]) := by
  have hlt := it.type_lt hv
  unfold xnlAttrMax at hlt
  have hmask : ∀ t, (y.attrMask ||| 1#32 <<< it.type).getLsbD t = true ↔
      ∃ it' ∈ items ++ [it], it'.type = t := fun t => by
    rw [getLsbD_or_bit _ (by omega), h.attrMask t]
    simp [or_and_right, exists_or]
  cases it with
  | int t v =>
      refine ⟨fun t' => ?_, hmask, ?_, ?_⟩
      · rw [List.filterMap_append]
        unfold AttrItem.apply
        by_cases ht : t = t'
        · simp [AttrItem.number, ht]
        · simp [AttrItem.number, ht, Function.update_of_ne (Ne.symm ht), h.attrs t']
      · rw [List.filterMap_append]
        exact h.printed.trans (congrArg _ (List.append_nil _).symm)
      · rw [List.filterMap_append]
        exact h.drvStr.trans (by rw [List.filterMap_cons_none rfl, List.filterMap_nil, List.append_nil])
  | str t s =>
      obtain rfl | rfl := AttrItem.str_type hv
      · rw [AttrItem.apply_genmsg]
        refine ⟨fun t' => ?_, hmask, ?_, ?_⟩
        · simpa [AttrItem.number] using h.attrs t'
        · simp [AttrItem.text, h.printed]
        · have hne : xnlAttrGenmsg ≠ xnlAttrDrvInfo := by decide
          simpa [AttrItem.text, hne] using h.drvStr
      · rw [AttrItem.apply_drvInfo]
        refine ⟨fun t' => ?_, hmask, ?_, ?_⟩
        · simpa [AttrItem.number] using h.attrs t'
        · have hne : xnlAttrDrvInfo ≠ xnlAttrGenmsg := by decide
          simpa [AttrItem.text, hne] using h.printed
        · simp [AttrItem.text]

theorem Decoded.applyAll {x y : AttrInfo} {l items : List AttrItem} (h : Decoded x y l)
    (hv : ∀ it ∈ items, it.Valid) : Decoded x (items.foldl AttrItem.apply y) (l ++ items) := by
  induction items generalizing y l with
  | nil => rwa [List.append_nil]
  | cons it items ih =>
      have hsplit : l ++ it :: items = (l ++ [it]) ++ items := by simp
      rw [hsplit]
      exact ih (h.apply (hv it (List.mem_cons_self ..)))
        fun it' h' => hv it' (List.mem_cons_of_mem _ h')

theorem attrsMaxlen_of_len {m : ByteMem} {k : ℕ} (h : nlmsgLen m = xnlHdrSize + k)
    (hk : k < 2 ^ 31) : attrsMaxlen m = k := by
  have hsub : BitVec.ofNat 32 (xnlHdrSize + k) - BitVec.ofNat 32 (nlmsgLength genlHdrlen) =
      BitVec.ofNat 32 k := by
    have hhdr : nlmsgLength genlHdrlen = xnlHdrSize := rfl
    rw [hhdr, BitVec.ofNat_add, BitVec.add_comm, BitVec.add_sub_cancel]
  have hnat : (BitVec.ofNat 32 k).toNat = k := by
    rw [BitVec.toNat_ofNat]
    exact Nat.mod_eq_of_lt (by omega)
  unfold attrsMaxlen
  rw [h, hsub, BitVec.toInt_eq_toNat_of_lt (by omega), hnat]

/-- **What was put into a message** that fits its buffer comes out of it: the last number of each
type, the types there are, the lines and the driver's text, after a step for each attribute. -/
theorem attrs_round_trip (m : ByteMem) (family op pid : ℕ) {dlen : ℕ}
    (hdlen : dlen ≤ xnlRespBuflenMax) {items : List AttrItem} (hv : ∀ it ∈ items, it.Valid)
    (hfit : xnlHdrSize + itemsLen items ≤ xnlHdrSize + dlen) (x : AttrInfo) :
    ∃ y, recvAttrs items.length (buildMsg m family op pid items) (xnlHdrSize + dlen) x =
        some (.returned 0 y) ∧ Decoded x y items := by
  unfold xnlRespBuflenMax at hdlen
  have hsmall : xnlHdrSize + itemsLen items < 2 ^ 16 := by
    unfold xnlHdrSize
    omega
  have hmsg : MsgOf (buildMsg m family op pid items) items :=
    (msgOf_setHdr m family op pid).addAll hv hsmall
  have hmaxlen := attrsMaxlen_of_len hmsg.len (by omega)
  refine ⟨_, ?_, (decoded_nil x).applyAll hv⟩
  unfold recvAttrs
  rw [if_neg (by unfold xnlHdrSize; omega), hmaxlen]
  exact recvAttrsLoop_items hmsg.items hv hfit _

/-- A queue index given twice, and a text. -/
def threeItems : List AttrItem := [.int 12 5, .str xnlAttrDrvInfo [0x61], .int 12 7]

theorem threeItems_valid : ∀ it ∈ threeItems, it.Valid := by
  unfold threeItems
  simp only [List.forall_mem_cons, List.not_mem_nil, false_imp_iff, implies_true, and_true]
  exact ⟨⟨by decide, by decide⟩, ⟨by decide, by decide⟩, by decide, by decide⟩

theorem attrs_round_trip_three :
    ∃ y, recvAttrs 3 (buildMsg (fun _ => 0) 16 4 1 threeItems) (xnlHdrSize + 256) blankAttrInfo =
        some (.returned 0 y) ∧ Decoded blankAttrInfo y threeItems :=
  attrs_round_trip (fun _ => 0) 16 4 1 (show 256 ≤ xnlRespBuflenMax by decide) threeItems_valid
    (by decide) blankAttrInfo

end Qdma
