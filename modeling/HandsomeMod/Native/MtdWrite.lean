import HandsomeMod.Native.MtdDevice

/-!
# `mtd_write`

Embeds `mtd_write` of `package/system/mtd/src/mtd.c`: the `resume` label, the `for (;;)` loop that
fills the erase block buffer, erases ahead and writes, and the hand-over to the next device of
`d1:d2:...` when an erase fails.

The image is the bytes that `image_check` left in `buf` followed by what `read` delivers. FIS
support, the TP-Link recovery flag and the checksum fix-ups after `-j` are not part of the model;
`mtd_replace_jffs2` is a parameter.
-/

namespace HandsomeMod.Native.Mtd

/-- How one `read(imagefd, ..)` call turns out while bytes are left: it delivers at least one and
    at most `n` bytes, or fails. After the last entry every read delivers all that is asked for. -/
inductive ReadRes where
  | short (n : Nat)
  | eintr
  | eagain
  | error
  deriving Repr, DecidableEq

/-- Options and surroundings of a run. `heap` is what lies behind the erase block buffer. -/
structure Config where
  noErase : Bool
  partOffset : Nat
  jffs2SkipBytes : Nat
  heap : Nat → UInt8
  /-- `mtd_replace_jffs2` after `mtd_parse_jffs2data` has seen the given blocks -/
  replaceJffs2 : List (List UInt8) → MtdDev → Fd → Nat → Fd × Nat

/-- The locals of `mtd_write` and the globals it changes. `buf` holds the first `buflen` bytes of
    the erase block buffer, `rest` and `script` are the unread part of the image. -/
structure St where
  buf : List UInt8
  rest : List UInt8
  script : List ReadRes
  offset : Nat
  skipBadBlocks : Nat
  skip : Int
  jffs2file : Bool
  parsed : List (List UInt8)
  fd : Fd
  w : Nat
  e : Nat

/-- The byte at `buf[i]`, also for an `i` outside the buffer. -/
def bufByte (cfg : Config) (buf : List UInt8) (i : Nat) : UInt8 := buf.getD i (cfg.heap i)

/-- `while (buflen < erasesize)`: the bytes in `buf`, those left, and the reads left. -/
def fillBuf (erasesize : Nat) : List ReadRes → List UInt8 → List UInt8 →
    List UInt8 × List UInt8 × List ReadRes
  | [], rest, buf =>
    (buf ++ rest.take (erasesize - buf.length), rest.drop (erasesize - buf.length), [])
  | r :: script, rest, buf =>
    if buf.length < erasesize then
      match r with
      | .eintr => fillBuf erasesize script rest buf
      | .eagain => fillBuf erasesize script rest buf
      -- a failed read ends the image like its end does
      | .error => (buf, rest, script)
      | .short n =>
        match rest with
        | [] => (buf, [], script)
        | b :: rest =>
          -- a read returns one byte at least and no more than there is room for
          let got := min (n - 1) (erasesize - buf.length - 1)
          fillBuf erasesize script (rest.drop got) (buf ++ b :: rest.take got)
    else (buf, rest, r :: script)

/-- When nothing goes wrong any more, `fillBuf` reads a block or what is left. -/
theorem fillBuf_nil (erasesize : Nat) (rest buf : List UInt8) : fillBuf erasesize [] rest buf =
    (buf ++ rest.take (erasesize - buf.length), rest.drop (erasesize - buf.length), []) := by
  rw [fillBuf]

/-- `memset(&buf[buflen], 0xff, erasesize - buflen)` -/
def padBlock (erasesize : Nat) (buf : List UInt8) : List UInt8 :=
  buf ++ List.replicate (erasesize - buf.length) 0xff

/-- How the erase loop ends. -/
inductive EraseRes where
  | ready (fd : Fd) (e skipBadBlocks : Nat)
  | failed (fd : Fd) (e skipBadBlocks : Nat)
  | exit
  | outOfFuel

/-- `while (w + buflen > e - skip_bad_blocks)`, the comparison being signed. -/
def eraseLoop (cfg : Config) (d : MtdDev) (w buflen : Nat) : Nat → Fd → Nat → Nat → EraseRes
  | 0, _, _, _ => .outOfFuel
  | fuel + 1, fd, e, skipBadBlocks =>
    -- need to erase the next block before writing data to it
    if w + buflen + skipBadBlocks > e then
      match mtdBlockIsBad d e with
      | none => .exit
      -- a bad block: the file position and the count of skipped bytes go on
      | some true =>
        eraseLoop cfg d w buflen fuel (fd.seekCur d.erasesize) (e + d.erasesize)
          (skipBadBlocks + d.erasesize)
      | some false =>
        match mtdEraseBlock d fd (e + cfg.partOffset) with
        -- at the end of the device or on an erase error
        | none => .failed fd e skipBadBlocks
        | some fd => eraseLoop cfg d w buflen fuel fd (e + d.erasesize) skipBadBlocks
    else .ready fd e skipBadBlocks

/-- Enough turns for `eraseLoop`: one for each block and one for each block's worth of `goal`. -/
def eraseFuel (d : MtdDev) (goal : Nat) : Nat := d.nblocks + goal / d.erasesize + 2

/-- The erase loop, or nothing with `-n`. -/
def eraseAhead (cfg : Config) (d : MtdDev) (st : St) : EraseRes :=
  if cfg.noErase then .ready st.fd st.e st.skipBadBlocks
  else
    eraseLoop cfg d st.w st.buf.length (eraseFuel d (st.w + st.buf.length + st.skipBadBlocks))
      st.fd st.e st.skipBadBlocks

/-- `memcmp(buf, JFFS2_EOF, sizeof(JFFS2_EOF) - 1) == 0` -/
def isJffs2Eof (buf : List UInt8) : Bool := buf.take 4 == [0xde, 0xad, 0xc0, 0xde]

/-- How one turn of `for (;;)` ends. -/
inductive Turn where
  | again (st : St)
  | done (st : St)
  | resume (st : St)
  | exit
  | outOfFuel

/-- The erase failed: hand the buffer over to the next device, if there is one. -/
def handOver (cfg : Config) (d : MtdDev) (next : Bool) (st : St) : Turn :=
  if next then
    if st.w < st.e then
      let (fd, _) := st.fd.write d (bufByte cfg st.buf) st.offset (st.e - st.w)
      .resume { st with fd := fd, offset := st.e - st.w }
    else .resume st
  else .exit

/-- Write the buffer to the erased block. -/
def writeBlock (cfg : Config) (d : MtdDev) (st : St) : Turn :=
  let (fd, result) := st.fd.write d (bufByte cfg st.buf) st.offset st.buf.length
  if result < st.buf.length then .exit
  else .again { st with fd := fd, w := st.w + st.buf.length, buf := [], offset := 0 }

/-- Erase ahead and write the full buffer. -/
def eraseAndWrite (cfg : Config) (d : MtdDev) (next : Bool) (st : St) : Turn :=
  match eraseAhead cfg d st with
  | .exit => .exit
  | .outOfFuel => .outOfFuel
  | .failed fd e skipBadBlocks =>
    handOver cfg d next { st with fd := fd, e := e, skipBadBlocks := skipBadBlocks }
  | .ready fd e skipBadBlocks =>
    writeBlock cfg d { st with fd := fd, e := e, skipBadBlocks := skipBadBlocks }

/-- The turn after the buffer has been filled and padded. -/
def handleBlock (cfg : Config) (d : MtdDev) (next : Bool) (st : St) : Turn :=
  if 0 < st.skip then
    .again { st with skip := st.skip - st.buf.length, buf := [] }
  else if st.jffs2file ∧ cfg.jffs2SkipBytes ≤ st.w then
    if isJffs2Eof st.buf then
      let (fd, n) := cfg.replaceJffs2 st.parsed d st.fd st.e
      .again { st with
        fd := fd, w := st.w + n, e := st.e + n, skip := (n : Int) - st.buf.length
        jffs2file := false, buf := [], offset := 0 }
    else eraseAndWrite cfg d next { st with parsed := st.parsed ++ [st.buf] }
  else eraseAndWrite cfg d next st

/-- One turn of `for (;;)`. -/
def writeTurn (cfg : Config) (d : MtdDev) (next : Bool) (st : St) : Turn :=
  let (buf, rest, script) := fillBuf d.erasesize st.script st.rest st.buf
  let st := { st with buf := buf, rest := rest, script := script }
  if st.buf.length = 0 then .done st
  else handleBlock cfg d next { st with buf := padBlock d.erasesize st.buf }

/-- `for (;;)`. The turn that ends it is its result. -/
def writeLoop (cfg : Config) (d : MtdDev) (next : Bool) : Nat → St → Turn
  | 0, _ => .outOfFuel
  | fuel + 1, st =>
    match writeTurn cfg d next st with
    | .again st => writeLoop cfg d next fuel st
    | t => t

/-- A device and its contents before the run. -/
abbrev Target := MtdDev × (Nat → UInt8)

/-- How the program ends: `mtd_write` returns 0 and the devices are left as given, or it calls
    `exit(1)`. -/
inductive Outcome where
  | returned (fds : List Fd)
  | exited
  | outOfFuel

/-- The result for a list of devices from the result for its tail. -/
def Outcome.cons (fd : Fd) : Outcome → Outcome
  | .returned fds => .returned (fd :: fds)
  | .exited => .exited
  | .outOfFuel => .outOfFuel

/-- The changes made to each device by a run that returns. -/
def Outcome.logs : Outcome → Option (List (List Op))
  | .returned fds => some (fds.map Fd.log)
  | .exited => none
  | .outOfFuel => none

/-- `mtd_check_open` and the seek to `part_offset`. -/
def openTarget (cfg : Config) (t : Target) : Fd := { pos := cfg.partOffset, mem := t.2, log := [] }

/-- From the `resume` label on. Opening a device that is not there ends the program. -/
def writeFrom (cfg : Config) : List Target → St → Outcome
  | [], _ => .exited
  | t :: ts, st =>
    match writeLoop cfg t.1 (!ts.isEmpty) (st.rest.length + 2)
        { st with fd := openTarget cfg t, w := 0, e := 0 } with
    | .done st => .returned [st.fd]
    | .resume st => (writeFrom cfg ts st).cons st.fd
    | .exit => .exited
    | .again _ => .outOfFuel
    | .outOfFuel => .outOfFuel

/-- The image file behind `imagefd`: the bytes `image_check` already read into `buf`, those still
    to be read, and how the reads turn out. -/
structure Image where
  buf : List UInt8
  rest : List UInt8
  script : List ReadRes

/-- All bytes of the image. -/
def Image.bytes (img : Image) : List UInt8 := img.buf ++ img.rest

/-- `mtd_write(imagefd, "d1:d2:...", NULL, part_offset)` with or without `-j`. -/
def mtdWrite (cfg : Config) (jffs2file : Bool) (ts : List Target) (img : Image) : Outcome :=
  writeFrom cfg ts
    { buf := img.buf, rest := img.rest, script := img.script, offset := 0, skipBadBlocks := 0
      skip := 0, jffs2file := jffs2file, parsed := [], fd := ⟨0, fun _ => 0, []⟩, w := 0, e := 0 }

end HandsomeMod.Native.Mtd
