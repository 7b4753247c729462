import Qdma.CmdNumbers
import Qdma.CmdQueue
import Qdma.NlMsg
import Qdma.NlQueue

/-!
# A queue command on its way to its queue

A line typed at `dmactl` is parsed to `struct xcmd_info`, put into a netlink message, taken
apart by generic netlink, and read again, one attribute at a time, by the handler of the driver.
Each of these has its own idea of a queue: words, flags and an index, attributes in a row,
places in a message, a slot of a table.

* `xnlSendCmd` is the message, and `dmactlMain` says whether it is sent.
* Generic netlink is not here.  `NlaDocumented` says what is relied on: a handler finds the last
  attribute of each type where it lies in the message.
* `xnlDoit` is a handler from the message on.  It asks of no attribute whether it is there: a
  missing one is a null pointer, and `xnlDoit` is `none`.
* `Asks` says what the words of a line ask for, and `queue_lines_served` that this is what is
  done, in every run of any lines from any number of tools.

A message is looked at as a row of attributes (`MsgOf`) and never as bytes.
-/

namespace Qdma

open Lib

/-! ## The message -/

/-- The types of the attributes of a request, `enum xnl_attr_t`. -/
def xnlAttrDevIdx : ℕ := 2
def xnlAttrQidx : ℕ := 12
def xnlAttrQflag : ℕ := 13
def xnlAttrQrngsz : ℕ := 14
def xnlAttrQbufsz : ℕ := 15
def xnlAttrWrbDescSize : ℕ := 16
def xnlAttrRangeStart : ℕ := 17
def xnlAttrRangeEnd : ℕ := 18

/-- The value of a command in `enum xnl_op_t`. -/
def XnlCmd.code (op : XnlCmd) : ℕ := op.ctorIdx

/-- The attributes of a request, in the order of `xnl_send_cmd`: numbers all of them. -/
def XcmdInfo.sent (x : XcmdInfo) : List (ℕ × BitVec 32) :=
  let q := x.qparm
  let idx := (xnlAttrQidx, BitVec.ofNat 32 q.idx)
  let flags := (xnlAttrQflag, q.flags)
  (xnlAttrDevIdx, BitVec.ofNat 32 x.ifIdx) ::
    match x.op with
    | .qAdd =>
        [idx, flags, (xnlAttrQrngsz, BitVec.ofNat 32 q.ringsz),
            (xnlAttrQbufsz, BitVec.ofNat 32 q.bufsz)] ++
          if hasFlag q.sflags QparmType.wrbsz.bit then
            [(xnlAttrWrbDescSize, BitVec.ofNat 32 q.entrySize)]
          else []
    | .qStart | .qStop | .qDel | .qDump => [idx, flags]
    | .qDesc | .qWrb =>
        [idx, flags, (xnlAttrRangeStart, BitVec.ofNat 32 q.rangeStart),
          (xnlAttrRangeEnd, BitVec.ofNat 32 q.rangeEnd)]
    | _ => []

def XcmdInfo.attrItems (x : XcmdInfo) : List AttrItem := x.sent.map fun a => .int a.1 a.2

/-- `struct xnl_cb` and the process. -/
structure XnlCb where
  family : ℕ
  sndSeq : ℕ
  pid : ℕ

/-- What `xnl_send_cmd` sends; `xnl_send` puts the sequence number in. -/
def xnlSendCmd (cb : XnlCb) (x : XcmdInfo) : ByteMem :=
  (buildMsg (fun _ => 0) cb.family x.op.code cb.pid x.attrItems).put32 8 cb.sndSeq

/-- How the talk goes that comes before a command: `xnl_connect`, and the question for the
device. -/
structure MainFates where
  connect : ℤ
  info : ℤ
  cb : XnlCb

/-- `main` for a command with a device: what it sends last, if it comes to that, and to which
of the two drivers. -/
def dmactlMain (f : MainFates) (argv : List Word) : Option (XcmdInfo × ByteMem) :=
  match parseCmd argv with
  | .ok x =>
      if x.op = .devList then none
      else if f.connect < 0 then none
      else if f.info < 0 then none
      else if x.op = .regDump ∨ x.op = .regRd ∨ x.op = .regWrt then none
      else some (x, xnlSendCmd f.cb x)
  | _ => none

/-! ## Generic netlink -/

/-- What a handler is given: the message, and for every type the place of its attribute. -/
structure GenlInfo where
  msg : ByteMem
  attrs : ℕ → Option ℕ

/-- The place of the last attribute of type `t` in a row that begins at `a`. -/
def lastPlace (t : ℕ) : ℕ → List AttrItem → Option ℕ
  | _, [] => none
  | a, it :: l => (lastPlace t (a + nlaAlign it.len) l).or (if it.type = t then some a else none)

/-- A number, with a type the driver knows. -/
def AttrItem.IsInt : AttrItem → Prop
  | .int t _ => xnlAttrDrvInfo < t ∧ t < xnlAttrMax
  | .str _ _ => False

/-- What the driver relies on: from a message with a row of numbers its handler gets the last
attribute of each type.  Four bytes are enough for every entry of `xnl_policy`. -/
def NlaDocumented (parse : ByteMem → ℕ → Option (ℕ → Option ℕ)) : Prop :=
  ∀ m items, MsgOf m items → (∀ it ∈ items, it.IsInt) →
    parse m (nlmsgLen m) = some fun t => lastPlace t xnlHdrSize items

/-- `nla_get_u32(info->attrs[t])`; `none` is a null pointer. -/
def GenlInfo.u32 (info : GenlInfo) (t : ℕ) : Option (BitVec 32) :=
  (info.attrs t).map fun p => BitVec.ofNat 32 (info.msg.get32 (p + 4))

/-- `nla_get_u8(info->attrs[t])`. -/
def GenlInfo.u8 (info : GenlInfo) (t : ℕ) : Option (BitVec 8) :=
  (info.attrs t).map fun p => info.msg (p + 4)

/-! ## The handlers -/

/-- A device in `xpdev_list`; `conf` says whether `qdma_device_get_config` knows it below. -/
structure XnlDev where
  idx : ℕ
  conf : Bool
  x : XlnxPciDev

/-- What a handler returns, the devices, and what it shows. -/
structure XnlOut where
  rv : ℤ
  devs : List XnlDev
  parts : List DumpPart

/-- `xpdev_find_by_idx`: the device and its place in the list. -/
def findDev (devs : List XnlDev) (idx : ℕ) : Option (XnlDev × ℕ) :=
  devs.zipIdx.find? fun d => d.1.idx = idx

/-- `xnl_rcv_check_xpdev`. -/
def xnlRcvCheckXpdev (devs : List XnlDev) (idx : BitVec 32) : Option (XnlDev × ℕ) :=
  match findDev devs idx.toNat with
  | none => none
  | some d => if d.1.conf then some d else none

/-- The range, which `xnl_q_dump_desc` and `xnl_q_dump_wrb` read before anything else. -/
def GenlInfo.range (info : GenlInfo) : XnlCmd → Option (BitVec 32 × BitVec 32)
  | .qDesc | .qWrb =>
      (info.u32 xnlAttrRangeStart).bind fun v1 => (info.u32 xnlAttrRangeEnd).map fun v2 => (v1, v2)
  | _ => some (0, 0)

/-- The entry size, which `xnl_q_add` reads for a streaming C2H queue. -/
def GenlInfo.entrySize (info : GenlInfo) (qconf : QdmaQueueConf) : XnlCmd → Option (BitVec 8)
  | .qAdd => if qconf.c2h && qconf.st then info.u8 xnlAttrWrbDescSize else some 0
  | _ => some 0

/-- The handler in `xnl_ops`. -/
def XnlCmd.nlCmd (range : BitVec 32 × BitVec 32) (size : BitVec 8) : XnlCmd → Option NlCmd
  | .qAdd => some (.add size)
  | .qStart => some .start
  | .qStop => some .stop
  | .qDel => some .del
  | .qDump => some .dump
  | .qDesc => some (.desc range.1 range.2)
  | .qWrb => some (.wrb range.1 range.2)
  | _ => none

/-- A handler of a queue command, from its message on. -/
def xnlDoit (op : XnlCmd) (env : NlEnv) (info : GenlInfo) (devs : List XnlDev) : Option XnlOut :=
  (info.range op).bind fun range =>
  (info.u32 xnlAttrDevIdx).bind fun idx =>
  match xnlRcvCheckXpdev devs idx with
  | none => some { rv := if op = .qAdd then 0 else -einval, devs := devs, parts := [] }
  | some (d, i) =>
      (info.u32 xnlAttrQflag).bind fun f =>
      -- `qconf_get` looks at the flags before it reads the index
      match qconfGet f 0 with
      | none => some { rv := -einval, devs := devs, parts := [] }
      | some qconf =>
          (info.u32 xnlAttrQidx).bind fun v =>
          (info.entrySize qconf op).bind fun size =>
          (op.nlCmd range size).map fun cmd =>
            let r := cmd.handler env d.x f v
            { rv := r.rv, devs := devs.set i { d with x := r.x }, parts := r.parts }

/-- The two drivers, that of the physical and that of the virtual functions. -/
abbrev XnlHost := Bool → List XnlDev

/-- A line typed at `dmactl`, with how the talk before it goes and what becomes of the requests
of the handler. -/
structure QLine where
  argv : List Word
  fates : MainFates
  env : NlEnv

/-- What a driver makes of a message. -/
def receive (parse : ByteMem → ℕ → Option (ℕ → Option ℕ)) (env : NlEnv) (h : XnlHost)
    (x : XcmdInfo) (m : ByteMem) : Option XnlOut :=
  (parse m (nlmsgLen m)).bind fun attrs => xnlDoit x.op env { msg := m, attrs := attrs } (h x.vf)

/-- Lines are typed in any order, by any number of users. -/
def qLineSys (parse : ByteMem → ℕ → Option (ℕ → Option ℕ)) : System XnlHost QLine where
  step h l :=
    match dmactlMain l.fates l.argv with
    | none => h
    | some (x, m) =>
        if x.op ∈ qCmds then
          match receive parse l.env h x m with
          | none => h
          | some out => Function.update h x.vf out.devs
        else h
  guard _ _ := True

/-! ## What a handler reads -/

section Reading

variable {m : ByteMem} {items : List AttrItem}

theorem AttrItem.IsInt.valid {it : AttrItem} (h : it.IsInt) : it.Valid := by
  cases it with
  | int t v => exact h
  | str t s => exact h.elim

/-- What is read at the place of the last attribute is the last number given. -/
theorem map_lastPlace {a : ℕ} (h : ItemsAt m a items) (hint : ∀ it ∈ items, it.IsInt) (t : ℕ) :
    (lastPlace t a items).map (fun p => m.get32 (p + 4)) =
      ((items.filterMap (AttrItem.number t)).getLast?).map BitVec.toNat := by
  induction items generalizing a with
  | nil => rfl
  | cons it items ih =>
      have hrest := ih h.2 fun it' h' => hint it' (List.mem_cons_of_mem _ h')
      have hlast : ∀ (o : Option (BitVec 32)), ((o.toList ++ items.filterMap
          (AttrItem.number t)).getLast?) = ((items.filterMap (AttrItem.number t)).getLast?).or o := by
        intro o
        rw [List.getLast?_append]
        cases o <;> rfl
      have hcons : (it :: items).filterMap (AttrItem.number t) =
          (it.number t).toList ++ items.filterMap (AttrItem.number t) := by
        rw [List.filterMap_cons]
        cases it.number t <;> rfl
      rw [hcons, hlast, lastPlace, Option.map_or, Option.map_or, hrest]
      congr 1
      cases it with
      | str t' s => exact (hint _ List.mem_cons_self).elim
      | int t' v =>
          unfold AttrItem.number AttrItem.type
          dsimp only
          split
          · exact congrArg some h.1.2.2
          · rfl

/-- A handler reads the last number given. -/
theorem u32_lastPlace (h : MsgOf m items) (hint : ∀ it ∈ items, it.IsInt) (t : ℕ) :
    GenlInfo.u32 { msg := m, attrs := fun t => lastPlace t xnlHdrSize items } t =
      (items.filterMap (AttrItem.number t)).getLast? := by
  have hread := congrArg (Option.map (BitVec.ofNat 32)) (map_lastPlace h.items hint t)
  rw [Option.map_map, Option.map_map] at hread
  refine hread.trans ?_
  cases (items.filterMap (AttrItem.number t)).getLast? with
  | none => rfl
  | some v =>
      change some (BitVec.ofNat 32 v.toNat) = some v
      rw [BitVec.ofNat_toNat, BitVec.setWidth_eq]

/-- Of a number the lowest byte comes first. -/
theorem get32_low (m : ByteMem) (a : ℕ) : BitVec.ofNat 8 (m.get32 a) = m a := by
  refine BitVec.eq_of_toNat_eq ?_
  rw [BitVec.toNat_ofNat]
  have hlt := (m a).isLt
  unfold ByteMem.get32 ByteMem.get16
  omega

theorem u8_lastPlace (h : MsgOf m items) (hint : ∀ it ∈ items, it.IsInt) (t : ℕ) :
    GenlInfo.u8 { msg := m, attrs := fun t => lastPlace t xnlHdrSize items } t =
      ((items.filterMap (AttrItem.number t)).getLast?).map (BitVec.setWidth 8) := by
  have hread := congrArg (Option.map (BitVec.ofNat 8)) (map_lastPlace h.items hint t)
  rw [Option.map_map, Option.map_map] at hread
  have hlow : (fun p => m (p + 4)) = BitVec.ofNat 8 ∘ fun p => m.get32 (p + 4) :=
    funext fun p => (get32_low m (p + 4)).symm
  unfold GenlInfo.u8
  dsimp only
  rw [hlow]
  refine hread.trans ?_
  cases (items.filterMap (AttrItem.number t)).getLast? with
  | none => rfl
  | some v => rfl

end Reading

/-! ## What is sent is read -/

/-- The request a handler makes of a command for a queue that is to be as `qconf`. -/
def XcmdInfo.nlCmd (x : XcmdInfo) (qconf : QdmaQueueConf) : Option NlCmd :=
  x.op.nlCmd (BitVec.ofNat 32 x.qparm.rangeStart, BitVec.ofNat 32 x.qparm.rangeEnd)
    (if qconf.c2h && qconf.st then BitVec.ofNat 8 x.qparm.entrySize else 0)

/-- A command is served by the device it names. -/
def serveCmd (env : NlEnv) (devs : List XnlDev) (x : XcmdInfo) (cmd : NlCmd) : XnlOut :=
  match xnlRcvCheckXpdev devs (BitVec.ofNat 32 x.ifIdx) with
  | none => { rv := if x.op = .qAdd then 0 else -einval, devs := devs, parts := [] }
  | some (d, i) =>
      let r := cmd.handler env d.x x.qparm.flags (BitVec.ofNat 32 x.qparm.idx)
      { rv := r.rv, devs := devs.set i { d with x := r.x }, parts := r.parts }

/-- The types of the attributes that are sent. -/
def sentTypes (sized : Bool) : XnlCmd → List ℕ
  | .qAdd =>
      [xnlAttrDevIdx, xnlAttrQidx, xnlAttrQflag, xnlAttrQrngsz, xnlAttrQbufsz] ++
        if sized then [xnlAttrWrbDescSize] else []
  | .qStart | .qStop | .qDel | .qDump => [xnlAttrDevIdx, xnlAttrQidx, xnlAttrQflag]
  | .qDesc | .qWrb =>
      [xnlAttrDevIdx, xnlAttrQidx, xnlAttrQflag, xnlAttrRangeStart, xnlAttrRangeEnd]
  | _ => [xnlAttrDevIdx]

theorem sent_types (x : XcmdInfo) :
    x.sent.map Prod.fst = sentTypes (hasFlag x.qparm.sflags QparmType.wrbsz.bit) x.op := by
  obtain ⟨vf, op, ifIdx, reg, q⟩ := x
  cases op with
  | qAdd =>
      unfold XcmdInfo.sent sentTypes
      dsimp only
      cases hasFlag q.sflags QparmType.wrbsz.bit with
      | true => rfl
      | false => rfl
  | _ => rfl

theorem sentTypes_known : ∀ (sized : Bool) (op : XnlCmd), (sentTypes sized op).length ≤ 6 ∧
    ∀ t ∈ sentTypes sized op, xnlAttrDrvInfo < t ∧ t < xnlAttrMax := by
  intro sized op
  cases sized <;> cases op <;> decide

theorem isInt_attrItems (x : XcmdInfo) : ∀ it ∈ x.attrItems, it.IsInt := by
  intro it hit
  obtain ⟨a, ha, rfl⟩ := List.mem_map.mp hit
  refine (sentTypes_known (hasFlag x.qparm.sflags QparmType.wrbsz.bit) x.op).2 a.1 ?_
  rw [← sent_types]
  exact List.mem_map_of_mem ha

theorem itemsLen_attrItems (x : XcmdInfo) : itemsLen x.attrItems ≤ 48 := by
  have hnum : ∀ l : List (ℕ × BitVec 32),
      itemsLen (l.map fun a => AttrItem.int a.1 a.2) = 8 * l.length := by
    intro l
    induction l with
    | nil => rfl
    | cons a l ih =>
        have height : nlaAlign 8 = 8 := by decide
        rw [List.map_cons, itemsLen, ih, AttrItem.len_int, height, List.length_cons, Nat.mul_succ,
          Nat.add_comm]
  have hlen := congrArg List.length (sent_types x)
  have hle := (sentTypes_known (hasFlag x.qparm.sflags QparmType.wrbsz.bit) x.op).1
  rw [List.length_map] at hlen
  unfold XcmdInfo.attrItems
  rw [hnum]
  omega

/-- The sequence number stands before the attributes. -/
theorem msgOf_sent (cb : XnlCb) (x : XcmdInfo) : MsgOf (xnlSendCmd cb x) x.attrItems := by
  have hlen := itemsLen_attrItems x
  have hmsg : MsgOf (buildMsg (fun _ => 0) cb.family x.op.code cb.pid x.attrItems) x.attrItems :=
    (msgOf_setHdr _ _ _ _).addAll (fun it h => (isInt_attrItems x it h).valid) (by
      change xnlHdrSize + itemsLen x.attrItems < 2 ^ 16
      unfold xnlHdrSize
      omega)
  refine ⟨?_, hmsg.items.congr fun i hi _ => ?_⟩
  · refine Eq.trans (ByteMem.get32_congr fun i _ hi => ?_) hmsg.len
    exact ByteMem.put32_apart _ (Or.inl (by omega))
  · unfold xnlHdrSize at hi
    exact (ByteMem.put32_apart _ (Or.inr (by omega))).symm

/-- What the attributes of a queue command give. -/
structure SentNumbers (x : XcmdInfo) (number : ℕ → Option (BitVec 32)) : Prop where
  devIdx : number xnlAttrDevIdx = some (BitVec.ofNat 32 x.ifIdx)
  qidx : number xnlAttrQidx = some (BitVec.ofNat 32 x.qparm.idx)
  qflag : number xnlAttrQflag = some x.qparm.flags
  range : x.op = .qDesc ∨ x.op = .qWrb →
    number xnlAttrRangeStart = some (BitVec.ofNat 32 x.qparm.rangeStart) ∧
      number xnlAttrRangeEnd = some (BitVec.ofNat 32 x.qparm.rangeEnd)
  entrySize : x.op = .qAdd → hasFlag x.qparm.sflags QparmType.wrbsz.bit = true →
    number xnlAttrWrbDescSize = some (BitVec.ofNat 32 x.qparm.entrySize)

theorem sentNumbers {x : XcmdInfo} (hop : x.op ∈ qCmds) :
    SentNumbers x fun t => (x.attrItems.filterMap (AttrItem.number t)).getLast? := by
  obtain ⟨vf, op, ifIdx, reg, q⟩ := x
  have hsized : ∀ b, (hasFlag q.sflags QparmType.wrbsz.bit) = b →
      XcmdInfo.sent ⟨vf, .qAdd, ifIdx, reg, q⟩ = [(xnlAttrDevIdx, BitVec.ofNat 32 ifIdx),
        (xnlAttrQidx, BitVec.ofNat 32 q.idx), (xnlAttrQflag, q.flags),
        (xnlAttrQrngsz, BitVec.ofNat 32 q.ringsz), (xnlAttrQbufsz, BitVec.ofNat 32 q.bufsz)] ++
          if b then [(xnlAttrWrbDescSize, BitVec.ofNat 32 q.entrySize)] else [] := by
    rintro b rfl
    rfl
  cases op with
  | qAdd =>
      refine ⟨?_, ?_, ?_, by simp, fun _ hset => ?_⟩
      all_goals unfold XcmdInfo.attrItems
      · rw [hsized _ rfl]
        cases hasFlag q.sflags QparmType.wrbsz.bit <;> rfl
      · rw [hsized _ rfl]
        cases hasFlag q.sflags QparmType.wrbsz.bit <;> rfl
      · rw [hsized _ rfl]
        cases hasFlag q.sflags QparmType.wrbsz.bit <;> rfl
      · rw [hsized true hset]
        rfl
  | qStart | qStop | qDel | qDump => exact ⟨rfl, rfl, rfl, by simp, by simp⟩
  | qDesc | qWrb => exact ⟨rfl, rfl, rfl, fun _ => ⟨rfl, rfl⟩, by simp⟩
  | devList | devInfo | regDump | regRd | regWrt | qList => exact absurd hop (by simp [qCmds])

section Received

variable {parse : ByteMem → ℕ → Option (ℕ → Option ℕ)} {x : XcmdInfo}

/-- **A command is what the driver reads**: no attribute is missing, and what the handler makes
of them is the command that was given. -/
theorem receive_sent (hparse : NlaDocumented parse) (env : NlEnv) (h : XnlHost) (cb : XnlCb)
    (hop : x.op ∈ qCmds) {qconf : QdmaQueueConf} (hconf : qconfGet x.qparm.flags 0 = some qconf)
    (hsize : x.op = .qAdd → (qconf.c2h && qconf.st) = true →
        hasFlag x.qparm.sflags QparmType.wrbsz.bit = true) :
    ∃ cmd, x.nlCmd qconf = some cmd ∧
      receive parse env h x (xnlSendCmd cb x) = some (serveCmd env (h x.vf) x cmd) := by
  have hmsg := msgOf_sent cb x
  have hint := isInt_attrItems x
  have hnum := sentNumbers hop
  have hu32 := u32_lastPlace hmsg hint
  have hu8 := u8_lastPlace hmsg hint
  unfold receive
  rw [hparse _ _ hmsg hint, Option.bind_some]
  generalize hinfo : (GenlInfo.mk (xnlSendCmd cb x) fun t => lastPlace t xnlHdrSize x.attrItems) =
    info at hu32 hu8 ⊢
  simp only [← hu32] at hnum
  have hread : ∃ range size cmd, info.range x.op = some range ∧
      info.entrySize qconf x.op = some size ∧ x.op.nlCmd range size = some cmd ∧
        x.nlCmd qconf = some cmd := by
    have hr := hnum.range
    have hs := hnum.entrySize
    unfold XcmdInfo.nlCmd
    cases hop' : x.op with
    | qAdd =>
        refine ⟨(0, 0), _, _, rfl, ?_, rfl, rfl⟩
        change (if (qconf.c2h && qconf.st) = true then info.u8 xnlAttrWrbDescSize else some 0) = _
        by_cases hstc2h : (qconf.c2h && qconf.st) = true
        · rw [if_pos hstc2h, if_pos hstc2h, hu8, ← hu32, hs hop' (hsize hop' hstc2h)]
          exact congrArg some (BitVec.setWidth_ofNat_of_le (by decide) _)
        · rw [if_neg hstc2h, if_neg hstc2h]
    | qStart | qStop | qDel | qDump => exact ⟨(0, 0), 0, _, rfl, rfl, rfl, rfl⟩
    | qDesc | qWrb =>
        obtain ⟨h1, h2⟩ := hr (by simp [hop'])
        refine ⟨_, 0, _, ?_, rfl, rfl, rfl⟩
        unfold GenlInfo.range
        dsimp only
        rw [h1, h2]
        rfl
    | devList | devInfo | regDump | regRd | regWrt | qList =>
        exact absurd (hop' ▸ hop) (by simp [qCmds])
  obtain ⟨range, size, cmd, hrange, hes, hcmd, hnl⟩ := hread
  refine ⟨cmd, hnl, ?_⟩
  unfold xnlDoit serveCmd
  rw [hrange, Option.bind_some, hnum.devIdx, Option.bind_some]
  cases hfind : xnlRcvCheckXpdev (h x.vf) (BitVec.ofNat 32 x.ifIdx) with
  | none => rfl
  | some d =>
      dsimp only
      rw [hnum.qflag, Option.bind_some, hconf]
      dsimp only
      rw [hnum.qidx, Option.bind_some, hes, Option.bind_some, hcmd]
      rfl

end Received

/-! ## What the words ask for -/

def Qparm.index : Qparm → Option Word
  | .idx n => some n
  | _ => none

/-- The last index on the line. -/
def lastIdx (ps : List Qparm) : Option Word := (ps.filterMap Qparm.index).getLast?

/-- The entry size after a parameter: a word that is no number leaves what was there. -/
def Qparm.sizeAfter (old : ℕ) : Qparm → ℕ
  | .wrbsz n => sscanfHhu n old
  | _ => old

def sizeSeen (ps : List Qparm) : ℕ := ps.foldl Qparm.sizeAfter 0

/-- The entry size an addition asks for: the third of four, if no other is given. -/
def sizeAsked (ps : List Qparm) : ℕ :=
  if ∃ p ∈ ps, p.type = .wrbsz then sizeSeen ps else 3

/-- The command that the operation `op` with the parameters `ps` asks for. -/
structure AsksCmd (op : QOp) (ps : List Qparm) (cmd : NlCmd) : Prop where
  add : op = .add → ∃ size, cmd = .add size ∧
    (Qparm.mode true ∈ ps → Qparm.dir true ∈ ps → size = BitVec.ofNat 8 (sizeAsked ps))
  start : op = .start → cmd = .start
  stop : op = .stop → cmd = .stop
  del : op = .del → cmd = .del
  dump : op = .dump → lastRange ps = none → cmd = .dump
  range : op = .dump → ∀ a b, lastRange ps = some (a, b) →
    ∃ v1 v2 : BitVec 32, argReadInt a = .ok v1.toNat ∧ argReadInt b = .ok v2.toNat ∧
      (((∃ p ∈ ps, p.type = .desc) ∧ cmd = .desc v1 v2) ∨
        ((∃ p ∈ ps, p.type = .wrb) ∧ cmd = .wrb v1 v2))

/-- The whole of what a line asks for: the command, the mode and the direction, and the last
index, without which an addition takes any queue. -/
structure Asks (op : QOp) (ps : List Qparm) (r : NlReq) : Prop where
  cmd : AsksCmd op ps r.cmd
  conf : ∃ qconf, qconfGet r.flags r.qidx = some qconf ∧
    (qconf.st = true ↔ Qparm.mode true ∈ ps) ∧ (qconf.c2h = true ↔ Qparm.dir true ∈ ps)
  idx : ∀ w, lastIdx ps = some w → argReadInt w = .ok r.qidx.toNat
  noIdx : lastIdx ps = none → op = .add ∧ r.qidx.toNat = xnlQidxInvalid

/-- After the parameters `ps`: the index and the entry size. -/
structure QparmSum (ps : List Qparm) (r : QparmRead) : Prop where
  idx : ∀ w, lastIdx ps = some w → argReadInt w = .ok r.qparm.idx
  noIdx : lastIdx ps = none → r.qparm.idx = xnlQidxInvalid
  entrySize : r.qparm.entrySize = sizeSeen ps

theorem int_eq_some {w : Word} {v : ℕ} (h : cReaders.int w = some v) : argReadInt w = .ok v :=
  Parsed.toOption_eq_some.mp h

theorem QparmSum.apply {ps : List Qparm} {p : Qparm} {r r' : QparmRead} (h : QparmSum ps r)
    (hp : p.apply cReaders r = some r') : QparmSum (ps ++ [p]) r' := by
  have hlast : lastIdx (ps ++ [p]) = p.index.or (lastIdx ps) := by
    unfold lastIdx
    rw [List.filterMap_append, List.getLast?_append]
    cases p <;> rfl
  have hsize : sizeSeen (ps ++ [p]) = p.sizeAfter (sizeSeen ps) := by
    unfold sizeSeen
    rw [List.foldl_append]
    rfl
  -- a parameter that is neither leaves both alone
  have hother : p.index = none → r'.qparm.idx = r.qparm.idx →
      r'.qparm.entrySize = r.qparm.entrySize → sizeSeen (ps ++ [p]) = sizeSeen ps →
        QparmSum (ps ++ [p]) r' := by
    intro hnone hidx hes hseen
    have hsame : lastIdx (ps ++ [p]) = lastIdx ps := by
      rw [hlast, hnone]
      rfl
    refine ⟨fun w hw => ?_, fun hno => ?_, hes.trans (h.entrySize.trans hseen.symm)⟩
    · rw [hidx]
      exact h.idx w (hsame ▸ hw)
    · rw [hidx]
      exact h.noIdx (hsame ▸ hno)
  cases p with
  | idx n =>
      obtain ⟨v, hv, rfl⟩ := Option.map_eq_some_iff.mp hp
      refine ⟨fun w hw => ?_, fun hno => ?_, h.entrySize.trans hsize.symm⟩
      · rw [hlast] at hw
        cases hw
        exact int_eq_some hv
      · rw [hlast] at hno
        cases hno
  | mode st | dir c2h =>
      cases hp
      exact hother rfl rfl rfl hsize
  | cdev n =>
      obtain ⟨on, -, rfl⟩ := Option.map_eq_some_iff.mp hp
      cases on with
      | true => exact hother rfl rfl rfl hsize
      | false => exact hother rfl rfl rfl hsize
  | bufsz n | ringsz n =>
      obtain ⟨v, -, rfl⟩ := Option.map_eq_some_iff.mp hp
      exact hother rfl rfl rfl hsize
  | desc a b | wrb a b =>
      obtain ⟨v1, -, h1⟩ := Option.bind_eq_some_iff.mp hp
      obtain ⟨v2, -, rfl⟩ := Option.map_eq_some_iff.mp h1
      exact hother rfl rfl rfl hsize
  | wrbsz n =>
      obtain rfl := Option.some.inj hp
      refine ⟨fun w hw => h.idx w (by rw [hlast] at hw; exact hw),
        fun hno => h.noIdx (by rw [hlast] at hno; exact hno), ?_⟩
      rw [hsize, ← h.entrySize]
      rfl

theorem qparmSum_of_foldlM {ps : List Qparm} {r : QparmRead}
    (h : ps.foldlM (Qparm.apply cReaders) qparmStart = some r) : QparmSum ps r := by
  induction ps using List.reverseRecOn generalizing r with
  | nil =>
      obtain rfl : qparmStart = r := Option.some.inj h
      exact ⟨fun w hw => absurd hw (by simp [lastIdx]), fun _ => rfl, rfl⟩
  | append_singleton ps p ih =>
      rw [List.foldlM_append] at h
      obtain ⟨r0, h0, hp⟩ := Option.bind_eq_some_iff.mp h
      refine (ih h0).apply ?_
      simpa using hp

/-- What a check of a pair leaves alone. -/
theorem pairCheck_kept {t : QparmType} {k k' : BitVec 32} {r r' : QparmRead}
    (h : pairCheck t k k' r = .ok r') : r'.qparm.idx = r.qparm.idx ∧
      r'.qparm.entrySize = r.qparm.entrySize ∧
        ∀ j, hasFlag k j = false → hasFlag r'.qparm.flags j = hasFlag r.qparm.flags j := by
  rw [pairCheck] at h
  dsimp only at h
  split_ifs at h
  · cases h
    exact ⟨rfl, rfl, fun _ _ => rfl⟩
  · cases h
    refine ⟨rfl, rfl, fun j hj => ?_⟩
    change hasFlag (r.qparm.flags ||| k) j = _
    rw [hasFlag_or, hj, Bool.or_false]

/-- The parameters, checked: the index and the entry size are those of the line, and so are the
flags that are not the default. -/
structure QparmTold (ps : List Qparm) (q : XcmdQParm) : Prop where
  idx : ∀ w, lastIdx ps = some w → argReadInt w = .ok q.idx
  noIdx : lastIdx ps = none → q.idx = xnlQidxInvalid
  entrySize : q.entrySize = sizeSeen ps
  st : hasFlag q.flags xnlFQmodeSt = true ↔ Qparm.mode true ∈ ps
  c2h : hasFlag q.flags xnlFQdirC2h = true ↔ Qparm.dir true ∈ ps

theorem qparmTold {ps : List Qparm} {r : QparmRead} {op : QOp} {q : XcmdQParm}
    (hfold : ps.foldlM (Qparm.apply cReaders) qparmStart = some r)
    (h : qparmCheck r op.required = .ok q) : QparmTold ps q := by
  have hsum := qparmSum_of_foldlM hfold
  have hseen := qparmSeen_of_foldlM hfold
  rw [qparmCheck] at h
  split_ifs at h
  obtain ⟨r1, hmode, h1⟩ := Parsed.bind_eq_ok.mp h
  obtain ⟨r2, hdir, h2⟩ := Parsed.bind_eq_ok.mp h1
  cases h2
  obtain ⟨hidx1, hes1, hflags1⟩ := pairCheck_kept hmode
  obtain ⟨hidx2, hes2, hflags2⟩ := pairCheck_kept hdir
  have hidx : r2.qparm.idx = r.qparm.idx := hidx2.trans hidx1
  refine ⟨fun w hw => ?_, fun hno => ?_, hes2.trans (hes1.trans hsum.entrySize), ?_, ?_⟩
  · change argReadInt w = .ok r2.qparm.idx
    rw [hidx]
    exact hsum.idx w hw
  · exact hidx.trans (hsum.noIdx hno)
  · change hasFlag r2.qparm.flags xnlFQmodeSt = true ↔ _
    rw [hflags2 _ (by decide), hflags1 _ (by decide), hseen.st]
  · change hasFlag r2.qparm.flags xnlFQdirC2h = true ↔ _
    rw [hflags2 _ (by decide), hflags1 _ (by decide), hseen.c2h]

/-- What is made of the parameters once they are there. -/
theorem finish_cases {op : QOp} {y x : XcmdInfo} (hy : y.op = op.cmd) (h : op.finish y = some x) :
    (op = .add ∧ x = defaultEntrySize y) ∨ (op ≠ .add ∧ op ≠ .dump ∧ x = y) ∨
      (op = .dump ∧ dumpKind y = .ok x) := by
  have h' := Parsed.toOption_eq_some.mp h
  cases op with
  | add =>
      rw [if_pos rfl, dumpKind_other (by rw [(defaultEntrySize_flags y).1, hy]; decide)] at h'
      exact Or.inl ⟨rfl, (Parsed.ok.inj h').symm⟩
  | dump =>
      rw [if_neg (by decide)] at h'
      exact Or.inr (Or.inr ⟨rfl, h'⟩)
  | start | stop | del =>
      rw [if_neg (by decide), dumpKind_other (by rw [hy]; decide)] at h'
      exact Or.inr (Or.inl ⟨by decide, by decide, (Parsed.ok.inj h').symm⟩)

/-- A dump becomes the command of its range. -/
theorem dumpKind_cases {y x : XcmdInfo} (hy : y.op = .qDump) (h : dumpKind y = .ok x) :
    (hasFlag y.qparm.sflags QparmType.desc.bit = true ∧ x = { y with op := .qDesc }) ∨
      (hasFlag y.qparm.sflags QparmType.wrb.bit = true ∧ x = { y with op := .qWrb }) ∨
        (¬ hasFlag y.qparm.sflags QparmType.desc.bit = true ∧
          ¬ hasFlag y.qparm.sflags QparmType.wrb.bit = true ∧ x = y) := by
  rw [dumpKind, if_pos hy] at h
  dsimp only at h
  split_ifs at h with hboth hdesc hwrb
  · exact Or.inl ⟨hdesc, (Parsed.ok.inj h).symm⟩
  · exact Or.inr (Or.inl ⟨hwrb, (Parsed.ok.inj h).symm⟩)
  · exact Or.inr (Or.inr ⟨hdesc, hwrb, (Parsed.ok.inj h).symm⟩)

theorem argReadInt_lt {w : Word} {v : ℕ} (h : argReadInt w = .ok v) : v < 2 ^ 32 := by
  obtain ⟨-, rfl⟩ := argReadInt_toOption (Parsed.toOption_eq_some.mpr h)
  exact Nat.mod_lt _ (by decide)

/-- What an accepted line comes to. -/
structure LineTold (n : IfName) (op : QOp) (ps : List Qparm) (x : XcmdInfo)
    (qconf : QdmaQueueConf) : Prop where
  isQ : x.op ∈ qCmds
  vf : x.vf = n.vf
  dev : ∃ v, argReadInt n.digits = .ok v ∧ x.ifIdx = v % 2 ^ 8
  conf : qconfGet x.qparm.flags 0 = some qconf
  sized : x.op = .qAdd → (qconf.c2h && qconf.st) = true →
    hasFlag x.qparm.sflags QparmType.wrbsz.bit = true
  asks : ∀ env cmd, x.nlCmd qconf = some cmd → Asks op ps
    { env := env, cmd := cmd, flags := x.qparm.flags, qidx := BitVec.ofNat 32 x.qparm.idx }

theorem qconfGet_of_one {f : BitVec 32} (hmode : hasFlag f xnlFQmodeMm ≠ hasFlag f xnlFQmodeSt)
    (hdir : hasFlag f xnlFQdirH2c ≠ hasFlag f xnlFQdirC2h) (v : BitVec 32) :
    ∃ qconf, qconfGet f v = some qconf ∧ qconf.st = hasFlag f xnlFQmodeSt ∧
      qconf.c2h = hasFlag f xnlFQdirC2h := by
  have hpair : ∀ {a b : Bool}, a ≠ b → ¬ (b && a) = true := by decide
  unfold qconfGet
  rw [if_neg (hpair hmode), if_neg (hpair hdir.symm)]
  exact ⟨_, rfl, rfl, rfl⟩

theorem toNat_ofNat_arg {w : Word} {v : ℕ} (h : argReadInt w = .ok v) :
    (BitVec.ofNat 32 v).toNat = v := by
  rw [BitVec.toNat_ofNat]
  exact Nat.mod_eq_of_lt (argReadInt_lt h)

/-- The entry size of an addition that asks for a streaming queue. -/
theorem defaultEntrySize_told {y : XcmdInfo} {ps : List Qparm} (htold : QparmTold ps y.qparm)
    (hgiven : hasFlag y.qparm.sflags QparmType.wrbsz.bit = true ↔ ∃ p ∈ ps, p.type = .wrbsz)
    (hst : Qparm.mode true ∈ ps) : (defaultEntrySize y).qparm.entrySize = sizeAsked ps := by
  have hflag : y.qparm.flags &&& 1 ≠ 0 := of_decide_eq_true (htold.st.mpr hst)
  unfold defaultEntrySize sizeAsked
  dsimp only
  rw [if_pos rfl, if_pos hflag]
  by_cases hw : ∃ p ∈ ps, p.type = .wrbsz
  · rw [if_pos (hgiven.mpr hw), if_pos hw]
    exact htold.entrySize
  · rw [if_neg (mt hgiven.mp hw), if_neg hw]

theorem defaultEntrySize_kept (y : XcmdInfo) : (defaultEntrySize y).vf = y.vf ∧
    (defaultEntrySize y).ifIdx = y.ifIdx ∧ (defaultEntrySize y).qparm.idx = y.qparm.idx := by
  unfold defaultEntrySize
  dsimp only
  rw [if_pos rfl]
  split
  · split
    · exact ⟨rfl, rfl, rfl⟩
    · exact ⟨rfl, rfl, rfl⟩
  · exact ⟨rfl, rfl, rfl⟩

section Told

variable {op : QOp} {ps : List Qparm} {q : XcmdQParm}

/-- The mode, the direction and the index are there before the command is known. -/
theorem asks_of_cmd (htold : QparmTold ps q) (hchecked : QparmChecked op ps q) (env : NlEnv)
    {cmd : NlCmd} (hcmd : AsksCmd op ps cmd) :
    Asks op ps { env := env, cmd := cmd, flags := q.flags, qidx := BitVec.ofNat 32 q.idx } := by
  refine ⟨hcmd, ?_, fun w hw => ?_, fun hno => ⟨?_, ?_⟩⟩
  · obtain ⟨qconf, hconf, hst, hc2h⟩ :=
      qconfGet_of_one hchecked.mode hchecked.dir (BitVec.ofNat 32 q.idx)
    exact ⟨qconf, hconf, by rw [hst, htold.st], by rw [hc2h, htold.c2h]⟩
  · have hidx := htold.idx w hw
    change argReadInt w = .ok (BitVec.ofNat 32 q.idx).toNat
    rw [toNat_ofNat_arg hidx, hidx]
  · by_contra hop
    obtain ⟨n, hn⟩ := hchecked.idx hop
    have hmem : n ∈ ps.filterMap Qparm.index := List.mem_filterMap.mpr ⟨_, hn, rfl⟩
    rw [List.getLast?_eq_none_iff.mp hno] at hmem
    exact List.not_mem_nil hmem
  · change (BitVec.ofNat 32 q.idx).toNat = xnlQidxInvalid
    rw [htold.noIdx hno]
    rfl

/-- The range of a dump, as it was read. -/
theorem asks_range (hchecked : QparmChecked .dump ps q) {cmd : NlCmd} {type : QparmType}
    (hset : hasFlag q.sflags type.bit = true) (htype : (type = .desc ∧
      cmd = .desc (BitVec.ofNat 32 q.rangeStart) (BitVec.ofNat 32 q.rangeEnd)) ∨ (type = .wrb ∧
      cmd = .wrb (BitVec.ofNat 32 q.rangeStart) (BitVec.ofNat 32 q.rangeEnd))) :
    AsksCmd .dump ps cmd := by
  have hgiven : ∃ p ∈ ps, p.type = type := by
    rcases htype with ⟨rfl, -⟩ | ⟨rfl, -⟩
    · exact (hchecked.given _ (by decide) (by decide)).mp hset
    · exact (hchecked.given _ (by decide) (by decide)).mp hset
  refine ⟨fun h => absurd h (by decide), fun h => absurd h (by decide),
    fun h => absurd h (by decide), fun h => absurd h (by decide), fun _ hno => ?_, fun _ a b hab => ?_⟩
  · obtain ⟨p, hp, hpt⟩ := hgiven
    obtain ⟨a, b, hab⟩ := lastRange_isSome.mpr ⟨p, hp, by
      rcases htype with ⟨rfl, -⟩ | ⟨rfl, -⟩
      · exact Or.inl hpt
      · exact Or.inr hpt⟩
    rw [hno] at hab
    cases hab
  · obtain ⟨hs, he⟩ := hchecked.range a b hab
    have hs' := int_eq_some hs
    have he' := int_eq_some he
    refine ⟨_, _, hs'.trans (congrArg _ (toNat_ofNat_arg hs').symm),
      he'.trans (congrArg _ (toNat_ofNat_arg he').symm), ?_⟩
    rcases htype with ⟨rfl, hcmd⟩ | ⟨rfl, hcmd⟩
    · exact Or.inl ⟨hgiven, hcmd⟩
    · exact Or.inr ⟨hgiven, hcmd⟩

end Told

/-- A line whose parameters have been read and checked. -/
structure LineRead (n : IfName) (op : QOp) (ps : List Qparm) (y : XcmdInfo) : Prop where
  cmd : y.op = op.cmd
  vf : y.vf = n.vf
  dev : ∃ v, argReadInt n.digits = .ok v ∧ y.ifIdx = v % 2 ^ 8
  told : QparmTold ps y.qparm
  checked : QparmChecked op ps y.qparm

section Lines

variable {n : IfName} {op : QOp} {ps : List Qparm} {x y : XcmdInfo}

/-- An addition: only the entry size and its mark are new. -/
theorem told_add (h : LineRead n .add ps y) :
    ∃ qconf, LineTold n .add ps (defaultEntrySize y) qconf := by
  obtain ⟨qconf, hconf, hst, hc2h⟩ := qconfGet_of_one h.checked.mode h.checked.dir 0
  obtain ⟨hvf, hif, hidx⟩ := defaultEntrySize_kept y
  obtain ⟨hop, hflags, hsized⟩ := defaultEntrySize_flags y
  have hadd : (defaultEntrySize y).op = .qAdd := hop.trans h.cmd
  refine ⟨qconf, by rw [hadd]; decide, hvf.trans h.vf, ?_, ?_, fun _ hstc2h => ?_,
    fun env cmd hcmd => ?_⟩
  · rw [hif]
    exact h.dev
  · rw [hflags]
    exact hconf
  · refine hsized ?_
    rw [← hst]
    exact (Bool.and_eq_true_iff.mp hstc2h).2
  · rw [hflags, hidx]
    unfold XcmdInfo.nlCmd at hcmd
    rw [hadd] at hcmd
    refine asks_of_cmd h.told h.checked env ⟨fun _ => ⟨_, (Option.some.inj hcmd).symm, ?_⟩,
      fun hc => absurd hc (by decide), fun hc => absurd hc (by decide),
      fun hc => absurd hc (by decide), fun hc => absurd hc (by decide),
      fun hc => absurd hc (by decide)⟩
    intro hmst hmc2h
    have hyes : (qconf.c2h && qconf.st) = true := by
      rw [hst, hc2h, h.told.st.mpr hmst, h.told.c2h.mpr hmc2h]
      rfl
    rw [if_pos hyes, defaultEntrySize_told h.told (h.checked.given _ (by decide) (by decide)) hmst]

/-- Nothing is done behind the parameters of the others. -/
theorem told_plain (h : LineRead n op ps y) (hadd : op ≠ .add) (hdump : op ≠ .dump) :
    ∃ qconf, LineTold n op ps y qconf := by
  obtain ⟨qconf, hconf, -, -⟩ := qconfGet_of_one h.checked.mode h.checked.dir 0
  have hop := h.cmd
  have hq : y.op ∈ qCmds ∧ y.op ≠ .qAdd := by
    rw [hop]
    cases op with
    | add => exact absurd rfl hadd
    | start | stop | del | dump => exact ⟨by decide, by decide⟩
  refine ⟨qconf, hq.1, h.vf, h.dev, hconf, fun hc => absurd hc hq.2, fun env cmd hcmd => ?_⟩
  unfold XcmdInfo.nlCmd at hcmd
  rw [hop] at hcmd
  refine asks_of_cmd h.told h.checked env ?_
  cases op with
  | add => exact absurd rfl hadd
  | dump => exact absurd rfl hdump
  | start | stop | del =>
      cases hcmd
      constructor
      all_goals simp

/-- A dump is what its range makes of it. -/
theorem told_dump (h : LineRead n .dump ps y) (hkind : dumpKind y = .ok x) :
    ∃ qconf, LineTold n .dump ps x qconf := by
  obtain ⟨qconf, hconf, -, -⟩ := qconfGet_of_one h.checked.mode h.checked.dir 0
  have hdesc := h.checked.given .desc (by decide) (by decide)
  have hwrb := h.checked.given .wrb (by decide) (by decide)
  refine ⟨qconf, ?_⟩
  rcases dumpKind_cases h.cmd hkind with ⟨hset, rfl⟩ | ⟨hset, rfl⟩ | ⟨hno, hno', rfl⟩
  · refine ⟨by simp [qCmds], h.vf, h.dev, hconf, by simp, fun env cmd hcmd => ?_⟩
    cases hcmd
    exact asks_of_cmd h.told h.checked env (asks_range h.checked hset (Or.inl ⟨rfl, rfl⟩))
  · refine ⟨by simp [qCmds], h.vf, h.dev, hconf, by simp, fun env cmd hcmd => ?_⟩
    cases hcmd
    exact asks_of_cmd h.told h.checked env (asks_range h.checked hset (Or.inr ⟨rfl, rfl⟩))
  · have hop : x.op = .qDump := h.cmd
    have hnone : ∀ a b, lastRange ps ≠ some (a, b) := by
      intro a b hab
      obtain ⟨p, hp, hpd | hpw⟩ := lastRange_isSome.mp ⟨a, b, hab⟩
      · exact hno (hdesc.mpr ⟨p, hp, hpd⟩)
      · exact hno' (hwrb.mpr ⟨p, hp, hpw⟩)
    refine ⟨by rw [hop]; decide, h.vf, h.dev, hconf, by simp [hop], fun env cmd hcmd => ?_⟩
    unfold XcmdInfo.nlCmd at hcmd
    rw [hop] at hcmd
    refine asks_of_cmd h.told h.checked env ⟨fun hc => absurd hc (by decide),
      fun hc => absurd hc (by decide), fun hc => absurd hc (by decide),
      fun hc => absurd hc (by decide), fun _ _ => (Option.some.inj hcmd).symm,
      fun _ a b hab => absurd hab (hnone a b)⟩

theorem line_told (h : (CmdLine.dev n (.q op ps)).eval cReaders = some x) :
    ∃ qconf, LineTold n op ps x qconf := by
  obtain ⟨d, hd, h1⟩ := Option.bind_eq_some_iff.mp h
  rw [Req.fill] at h1
  split_ifs at h1
  obtain ⟨q, hq, hfin⟩ := Option.bind_eq_some_iff.mp h1
  obtain ⟨r, hloop, hcheck⟩ := Option.bind_eq_some_iff.mp hq
  have hcheck' := Parsed.toOption_eq_some.mp hcheck
  obtain ⟨v, hv, rfl⟩ := Option.map_eq_some_iff.mp hd
  have hread : LineRead n op ps { XcmdInfo.zero with
      vf := n.vf, ifIdx := v % 2 ^ 8, op := op.cmd, qparm := q } :=
    { cmd := rfl
      vf := rfl
      dev := ⟨v, int_eq_some hv, rfl⟩
      told := qparmTold hloop hcheck'
      checked := qparmCheck_ok (qparmSeen_of_foldlM hloop) hcheck' }
  rcases finish_cases hread.cmd hfin with ⟨rfl, rfl⟩ | ⟨hadd, hdump, rfl⟩ | ⟨rfl, hkind⟩
  · exact told_add hread
  · exact told_plain hread hadd hdump
  · exact told_dump hread hkind

end Lines

/-! ## Every line, in every run -/

/-- What becomes of the devices of a driver when request `r` is for number `k`. -/
structure Served (devs : List XnlDev) (out : XnlOut) (k : ℕ) (r : NlReq) : Prop where
  absent : findDev devs k = none → out.devs = devs ∧ out.parts = []
  others : ∀ d i, findDev devs k = some (d, i) → ∀ j, j ≠ i → out.devs[j]? = devs[j]?
  named : ∀ d i, findDev devs k = some (d, i) →
    out.devs[i]? = some { d with x := (r.res d.x).x } ∧ out.rv = (r.res d.x).rv ∧
      out.parts = (r.res d.x).parts
  acts : ∀ d i, findDev devs k = some (d, i) → r.qidx.toNat % 2 ^ 16 ≠ xnlQidxInvalid →
    ¬ r.SetsUpMore d.x → ActsOn r d.x (r.qidx.toNat % 2 ^ 16)

/-- Every device is known below, and its table is in order. -/
def HostInv (h : XnlHost) : Prop := ∀ vf, ∀ d ∈ h vf, TableInv d.x ∧ d.conf = true

theorem findDev_eq_some {devs : List XnlDev} {k i : ℕ} {d : XnlDev}
    (h : findDev devs k = some (d, i)) : devs[i]? = some d :=
  (List.mem_zipIdx_iff_getElem?.mp (List.mem_of_find?_eq_some h))

section Serving

variable {devs : List XnlDev} {x : XcmdInfo} (env : NlEnv) (cmd : NlCmd)

/-- The request as the driver sees it. -/
def XcmdInfo.nlReq (x : XcmdInfo) (env : NlEnv) (cmd : NlCmd) : NlReq :=
  { env := env, cmd := cmd, flags := x.qparm.flags, qidx := BitVec.ofNat 32 x.qparm.idx }

theorem serveCmd_cases (hconf : ∀ d ∈ devs, d.conf = true) (hif : x.ifIdx < 2 ^ 8) :
    (findDev devs x.ifIdx = none ∧ (serveCmd env devs x cmd).devs = devs ∧
        (serveCmd env devs x cmd).parts = []) ∨
      ∃ d i, findDev devs x.ifIdx = some (d, i) ∧ serveCmd env devs x cmd =
        { rv := ((x.nlReq env cmd).res d.x).rv
          devs := devs.set i { d with x := ((x.nlReq env cmd).res d.x).x }
          parts := ((x.nlReq env cmd).res d.x).parts } := by
  have hidx : (BitVec.ofNat 32 x.ifIdx).toNat = x.ifIdx := by
    rw [BitVec.toNat_ofNat]
    omega
  unfold serveCmd xnlRcvCheckXpdev
  rw [hidx]
  cases hfind : findDev devs x.ifIdx with
  | none => exact Or.inl ⟨rfl, rfl, rfl⟩
  | some di =>
      obtain ⟨d, i⟩ := di
      have hd := hconf d (List.mem_of_getElem? (findDev_eq_some hfind))
      refine Or.inr ⟨d, i, rfl, ?_⟩
      dsimp only
      rw [if_pos hd]
      rfl

theorem served (hinv : ∀ d ∈ devs, TableInv d.x ∧ d.conf = true) (hif : x.ifIdx < 2 ^ 8) :
    Served devs (serveCmd env devs x cmd) x.ifIdx (x.nlReq env cmd) := by
  rcases serveCmd_cases env cmd (fun d hd => (hinv d hd).2) hif with
    ⟨hnone, hdevs, hparts⟩ | ⟨d, i, hfind, heq⟩
  · refine ⟨fun _ => ⟨hdevs, hparts⟩, ?_, ?_, ?_⟩
    all_goals
      intro d i hsome
      rw [hnone] at hsome
      cases hsome
  · have hget := findDev_eq_some hfind
    have hsame : ∀ d' i', findDev devs x.ifIdx = some (d', i') → d' = d ∧ i' = i := by
      intro d' i' h
      rw [hfind] at h
      cases h
      exact ⟨rfl, rfl⟩
    refine ⟨fun h => ?_, fun d' i' h j hj => ?_, fun d' i' h => ?_, fun d' i' h hidx hmore => ?_⟩
    · rw [hfind] at h
      cases h
    · obtain ⟨rfl, rfl⟩ := hsame d' i' h
      rw [heq]
      exact List.getElem?_set_ne (Ne.symm hj)
    · obtain ⟨rfl, rfl⟩ := hsame d' i' h
      rw [heq]
      refine ⟨List.getElem?_set_self ?_, rfl, rfl⟩
      exact (List.getElem?_eq_some_iff.mp hget).1
    · obtain ⟨rfl, rfl⟩ := hsame d' i' h
      have hcut := qconfQidx_eq (x.nlReq env cmd).qidx
      rw [← hcut] at hidx ⊢
      exact actsOn_cut (hinv _ (List.mem_of_getElem? hget)).1 _ hidx hmore

theorem inv_serveCmd (hinv : ∀ d ∈ devs, TableInv d.x ∧ d.conf = true) (hif : x.ifIdx < 2 ^ 8) :
    ∀ d ∈ (serveCmd env devs x cmd).devs, TableInv d.x ∧ d.conf = true := by
  rcases serveCmd_cases env cmd (fun d hd => (hinv d hd).2) hif with
    ⟨-, hdevs, -⟩ | ⟨d, i, hfind, heq⟩
  · rw [hdevs]
    exact hinv
  · have hd := hinv d (List.mem_of_getElem? (findDev_eq_some hfind))
    rw [heq]
    intro d' hd'
    rcases List.mem_or_eq_of_mem_set hd' with hold | rfl
    · exact hinv d' hold
    · exact ⟨tableInv_step hd.1 _, hd.2⟩

end Serving

section Run

variable {parse : ByteMem → ℕ → Option (ℕ → Option ℕ)}

theorem dmactlMain_eq_some {f : MainFates} {argv : List Word} {x : XcmdInfo} {m : ByteMem}
    (h : dmactlMain f argv = some (x, m)) : parseCmd argv = .ok x ∧ m = xnlSendCmd f.cb x := by
  unfold dmactlMain at h
  split at h
  · rename_i x' hparse
    split_ifs at h
    cases h
    exact ⟨hparse, rfl⟩
  · cases h

/-- A queue command that is sent has been read off the words of a line. -/
theorem sent_told {argv : List Word} {x : XcmdInfo} (h : parseCmd argv = .ok x)
    (hq : x.op ∈ qCmds) : ∃ n op ps qconf, argv.tail = (CmdLine.dev n (.q op ps)).words ∧
      LineTold n op ps x qconf := by
  obtain ⟨c, hc⟩ := exists_words_of_ok h
  have heval := eval_of_parseCmd h hc
  obtain ⟨n, op, ps, rfl⟩ := exists_q_of_eval heval hq
  obtain ⟨qconf, htold⟩ := line_told heval
  exact ⟨n, op, ps, qconf, hc, htold⟩

theorem LineTold.ifIdx_lt {n : IfName} {op : QOp} {ps : List Qparm} {x : XcmdInfo}
    {qconf : QdmaQueueConf} (h : LineTold n op ps x qconf) : x.ifIdx < 2 ^ 8 := by
  obtain ⟨v, -, hif⟩ := h.dev
  rw [hif]
  exact Nat.mod_lt _ (by decide)

theorem hostInv_step (hparse : NlaDocumented parse) {h : XnlHost} (hinv : HostInv h) (l : QLine) :
    HostInv ((qLineSys parse).step h l) := by
  change HostInv (match dmactlMain l.fates l.argv with | none => h | some (x, m) => _)
  cases hmain : dmactlMain l.fates l.argv with
  | none => exact hinv
  | some xm =>
      obtain ⟨x, m⟩ := xm
      obtain ⟨hok, rfl⟩ := dmactlMain_eq_some hmain
      dsimp only
      by_cases hq : x.op ∈ qCmds
      · obtain ⟨n, op, ps, qconf, -, htold⟩ := sent_told hok hq
        obtain ⟨cmd, -, hout⟩ :=
          receive_sent hparse l.env h l.fates.cb htold.isQ htold.conf htold.sized
        rw [if_pos hq, hout]
        intro vf
        by_cases hvf : vf = x.vf
        · subst hvf
          dsimp only
          rw [Function.update_self]
          exact inv_serveCmd l.env cmd (hinv _) htold.ifIdx_lt
        · dsimp only
          rw [Function.update_of_ne hvf]
          exact hinv vf
      · rw [if_neg hq]
        exact hinv

/-- **A line that is sent does what its words ask for**, to the device and the queue they name
and to no other, whatever lines were typed before it: no handler misses an attribute, and what
it reads in them is the mode, the direction, the index and the range of the words.  An index
that is cut to `0xFFFF` asks for any queue, and the addition that sets a device up may do more
than its own queue shows (`SetsUpMore`). -/
theorem queue_lines_served (hparse : NlaDocumented parse) {h₀ : XnlHost}
    (hprobed : ∀ vf, ∀ d ∈ h₀ vf, Probed d.x ∧ d.conf = true) (ls : List QLine) (l : QLine)
    {n : IfName} {op : QOp} {ps : List Qparm} {x : XcmdInfo} {m : ByteMem}
    (hwords : l.argv.tail = (CmdLine.dev n (.q op ps)).words)
    (hsent : dmactlMain l.fates l.argv = some (x, m)) :
    let h := (qLineSys parse).exec h₀ ls
    ∃ r out k, Asks op ps r ∧ r.env = l.env ∧ argReadInt n.digits = .ok k ∧
      receive parse l.env h x m = some out ∧ Served (h n.vf) out (k % 2 ^ 8) r ∧
        (qLineSys parse).step h l = Function.update h n.vf out.devs := by
  intro h
  have hstart : HostInv h₀ := fun vf d hd =>
    ⟨(hprobed vf d hd).1.tableInv, (hprobed vf d hd).2⟩
  have hinv : HostInv h := (qLineSys parse).invariant_free (I := HostInv)
    (fun h l hinv => hostInv_step hparse hinv l) ls hstart
  obtain ⟨hok, rfl⟩ := dmactlMain_eq_some hsent
  obtain ⟨qconf, htold⟩ := line_told (eval_of_parseCmd hok hwords)
  obtain ⟨cmd, hcmd, hout⟩ :=
    receive_sent hparse l.env h l.fates.cb htold.isQ htold.conf htold.sized
  obtain ⟨k, hk, hif⟩ := htold.dev
  have hserved := served l.env cmd (hinv x.vf) htold.ifIdx_lt
  rw [hif, htold.vf] at hserved
  rw [htold.vf] at hout
  refine ⟨x.nlReq l.env cmd, _, k, htold.asks l.env cmd hcmd, rfl, hk, hout, hserved, ?_⟩
  change (match dmactlMain l.fates l.argv with | none => h | some (x, m) => _) = _
  rw [hsent]
  dsimp only
  rw [if_pos htold.isQ, hout, htold.vf]

end Run

/-! ## Generic netlink as documented -/

/-- `xnl_policy`: the least length of a value, as far as numbers go. -/
def xnlPolicyLen (t : ℕ) : ℕ :=
  if t = xnlAttrWrbDescSize then 1
  else if t = xnlAttrRangeStart ∨ t = xnlAttrRangeEnd then 0
  else 4

/-- The loop of `nla_parse` over `rem` bytes, for at most `k` attributes. -/
def nlaParseLoop (m : ByteMem) : ℕ → ℕ → ℕ → (ℕ → Option ℕ) → Option (ℕ → Option ℕ)
  | 0, _, _, tb => some tb
  | k + 1, p, rem, tb =>
      -- `nla_ok`
      if rem < nlaHdrlen ∨ nlaLen m p < nlaHdrlen ∨ rem < nlaLen m p then some tb
      else
        let t := nlaType m p
        let next := nlaParseLoop m k (p + nlaAlign (nlaLen m p)) (rem - nlaAlign (nlaLen m p))
        if t = 0 ∨ xnlAttrMax ≤ t then next tb
        else if nlaLen m p - nlaHdrlen < xnlPolicyLen t then none
        else next (Function.update tb t (some p))

/-- `nla_parse` on a message of `len` bytes, in whose loop there is an attribute for 4 bytes at
most. -/
def nlaParse (m : ByteMem) (len : ℕ) : Option (ℕ → Option ℕ) :=
  nlaParseLoop m len xnlHdrSize (len - xnlHdrSize) fun _ => none

theorem nlaParseLoop_items {m : ByteMem} {a : ℕ} {items : List AttrItem} (h : ItemsAt m a items)
    (hint : ∀ it ∈ items, it.IsInt) {k : ℕ} (hk : items.length ≤ k) (tb : ℕ → Option ℕ) :
    nlaParseLoop m k a (itemsLen items) tb =
      some fun t => (lastPlace t a items).or (tb t) := by
  induction items generalizing a k tb with
  | nil =>
      cases k with
      | zero => rfl
      | succ k =>
          unfold nlaParseLoop
          rw [if_pos (Or.inl (by decide))]
          rfl
  | cons it items ih =>
      obtain ⟨k, rfl⟩ : ∃ k', k = k' + 1 := ⟨k - 1, by rw [List.length_cons] at hk; omega⟩
      have hit := hint it List.mem_cons_self
      cases it with
      | str t s => exact hit.elim
      | int t v =>
          have hlen : nlaLen m a = 8 := h.1.1
          have htype : nlaType m a = t := h.1.2.1
          have height : nlaAlign 8 = 8 := by decide
          have hbounds : 1 < t ∧ t < 19 := hit
          have hpolicy : xnlPolicyLen t ≤ 4 := by
            unfold xnlPolicyLen
            split
            · decide
            · split
              · decide
              · exact le_refl 4
          have hrest := ih h.2 (fun it' h' => hint it' (List.mem_cons_of_mem _ h'))
            (Nat.le_of_succ_le_succ hk)
          rw [AttrItem.len_int, height] at hrest
          unfold nlaParseLoop
          rw [hlen, htype, itemsLen, AttrItem.len_int, height]
          dsimp only
          rw [if_neg (by unfold nlaHdrlen; omega), if_neg (by unfold xnlAttrMax; omega),
            if_neg (by unfold nlaHdrlen; omega), Nat.add_sub_cancel_left, hrest]
          refine congrArg some (funext fun t' => ?_)
          rw [lastPlace, AttrItem.len_int, height]
          by_cases ht : t' = t
          · subst ht
            rw [Function.update_self, if_pos (show (AttrItem.int t' v).type = t' from rfl)]
            cases lastPlace t' (a + 8) items <;> rfl
          · rw [Function.update_of_ne ht,
              if_neg (show (AttrItem.int t v).type ≠ t' from Ne.symm ht)]
            cases lastPlace t' (a + 8) items <;> rfl

theorem nlaParse_documented : NlaDocumented nlaParse := by
  intro m items hmsg hint
  have hlen : nlmsgLen m - xnlHdrSize = itemsLen items := by
    rw [hmsg.len, Nat.add_sub_cancel_left]
  have hcount : ∀ l : List AttrItem, l.length ≤ itemsLen l := by
    intro l
    induction l with
    | nil => exact le_refl 0
    | cons it l ih =>
        have hle := le_nlaAlign it.len
        have hge := it.len_ge
        rw [List.length_cons, itemsLen]
        omega
  unfold nlaParse
  rw [hlen, nlaParseLoop_items hmsg.items hint]
  · simp only [Option.or_none]
  · rw [hmsg.len]
    exact (hcount items).trans (Nat.le_add_left _ _)

/-- One device, a physical function. -/
def onePfHost : XnlHost := fun vf => if vf then [] else [⟨0, true, plainXpdev⟩]

/-- `dmactl qdma0 q add idx 0 mode mm`. -/
def addLine : QLine where
  argv := [['d'], kwQdma ++ ['0'], kwQ, kwAdd, kwIdx, ['0'], kwMode, kwMm]
  fates := { connect := 0, info := 0, cb := { family := 27, sndSeq := 2, pid := 100 } }
  env := grantedNl

/-- What the line comes to. -/
def addLineInfo : XcmdInfo :=
  { XcmdInfo.zero with
    op := .qAdd
    qparm := { XcmdQParm.zero with sflags := 0x7, flags := 0x6 } }

/-- The same line twice. -/
theorem queue_lines_served_add :
    let h := (qLineSys nlaParse).exec onePfHost [addLine]
    let ps : List Qparm := [.idx ['0'], .mode false]
    ∃ r out k, Asks .add ps r ∧ r.env = grantedNl ∧ argReadInt ['0'] = .ok k ∧
      receive nlaParse grantedNl h addLineInfo (xnlSendCmd addLine.fates.cb addLineInfo) = some out ∧
        Served (h false) out (k % 2 ^ 8) r ∧
          (qLineSys nlaParse).step h addLine = Function.update h false out.devs := by
  have hparse : parseCmd addLine.argv = .ok addLineInfo := by decide +kernel
  have hsent : dmactlMain addLine.fates addLine.argv =
      some (addLineInfo, xnlSendCmd addLine.fates.cb addLineInfo) := by
    unfold dmactlMain
    rw [hparse]
    rfl
  have hprobed : ∀ vf, ∀ d ∈ onePfHost vf, Probed d.x ∧ d.conf = true := by
    intro vf d hd
    cases vf with
    | true => cases hd
    | false =>
        rw [List.mem_singleton.mp hd]
        exact ⟨plainXpdev_probed, rfl⟩
  exact queue_lines_served nlaParse_documented hprobed [addLine] addLine
    (n := { vf := false, digits := ['0'], figures := by decide, short := by decide }) rfl hsent

end Qdma
