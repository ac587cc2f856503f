import Gem5Nvmain.Lib.Numerals
import Gem5Nvmain.Nvm.DataBlock

/- The trace files of NVMain (traceWriter/NVMainTrace, traceReader/NVMainTrace).

  A file is its text, without the file system: an open file takes everything that is written. `endl` is a line feed.
  Of the operations of a trace line there are `NOP`, `READ` and `WRITE`; the other ones, which the writer skips like
  `NOP`, are left out, and so are the echo of a line on the standard output, the warnings, and the counter of the
  lines.

  `atoi` is that of glibc, `(int) strtol`. A physical address that no field sets is the parameter `address`: the local
  variable of `GetNextAccess` is not initialized. The host stores words with the low byte first. -/
namespace Nvm
open Lib

inductive TraceOp where
  | NOP
  | READ
  | WRITE
  deriving DecidableEq, Repr

structure TraceLine where
  address : BitVec 64
  operation : TraceOp
  cycle : BitVec 64
  data : NVMDataBlock
  oldData : NVMDataBlock
  /-- signed -/
  threadId : BitVec 64
  deriving DecidableEq, Repr

/-! ## NVMDataBlock -/

/-- `Print`. -/
def NVMDataBlock.print (d : NVMDataBlock) : List Char :=
  d.rawData.flatMap fun b => List.leftpad 2 '0' (Nat.toDigits 16 b.toNat)

/-- `SetSize`, and the bytes set to 0. -/
def NVMDataBlock.setSize (d : NVMDataBlock) (s : Nat) : Except Stop NVMDataBlock := do
  require d.rawData.isEmpty
  pure { rawData := List.replicate s 0, isValid := true }

/-! ## NVMainTraceWriter -/

structure NVMainTraceWriter where
  /-- the text of the file, when it is open -/
  trace : Option (List Char)
  deriving DecidableEq, Repr

namespace NVMainTraceWriter

def setTraceFile (opens : Bool) : NVMainTraceWriter where
  trace := if opens then some ['N', 'V', 'M', 'V', '1', '\n'] else none

/-- The line without its end. -/
def lineText (line : TraceLine) : List Char :=
  Nat.toDigits 10 line.cycle.toNat ++ ' ' :: (if line.operation = .READ then 'R' else 'W') :: ' ' ::
    ('0' :: 'x' :: Nat.toDigits 16 line.address.toNat) ++ ' ' ::
    line.data.print ++ ' ' :: line.oldData.print ++ ' ' :: printInt line.threadId.toInt

def writeTraceLine (stream : List Char) (line : TraceLine) : List Char :=
  if line.operation ≠ .READ ∧ line.operation ≠ .WRITE then stream else stream ++ lineText line ++ ['\n']

def setNextAccess (w : NVMainTraceWriter) (nextAccess : TraceLine) : Bool × NVMainTraceWriter :=
  match w.trace with
  | some stream => (true, { trace := some (writeTraceLine stream nextAccess) })
  | none => (false, w)

/-- The text of a file after these lines. -/
def written (lines : List TraceLine) : Option (List Char) :=
  (lines.foldl (fun w line => (w.setNextAccess line).2) (setTraceFile true)).trace

end NVMainTraceWriter

/-! ## NVMainTraceReader -/

structure NVMainTraceReader where
  /-- the text of the file, when one is set and can be opened -/
  traceFile : Option (List Char)
  trace : Option IStream := none
  traceVersion : BitVec 32 := 0
  readVersion : Bool := false
  deriving DecidableEq, Repr

namespace NVMainTraceReader

def setTraceFile (file : Option (List Char)) : NVMainTraceReader where
  traceFile := file

def atoi (l : List Char) : BitVec 32 := BitVec.ofInt 32 (strtol l)

/-- The bytes of a word after `htonl`, the low byte first. -/
def htonl (w : BitVec 32) : List UInt8 :=
  [UInt8.ofNat (w.toNat / 2 ^ 24), UInt8.ofNat (w.toNat / 2 ^ 16), UInt8.ofNat (w.toNat / 2 ^ 8), UInt8.ofNat w.toNat]

/-- A field of data is read in 16 words of 8 characters. -/
def readData (d : NVMDataBlock) (field : List Char) : Except Stop NVMDataBlock := do
  require (field.length == 128)
  let d ← d.setSize 64
  pure { d with rawData := (List.range 16).flatMap fun byte => htonl (getHex 32 ((field.drop (8 * byte)).take 8)) }

/-- The local variables of `GetNextAccess`. -/
structure Fields where
  cycle : BitVec 32 := 0
  operation : TraceOp := .READ
  address : BitVec 64
  dataBlock : NVMDataBlock := {}
  oldDataBlock : NVMDataBlock := {}
  threadId : BitVec 32 := 0
  fieldId : BitVec 8 := 0

/-- What the field of number `fieldId` sets. -/
def setField (traceVersion : BitVec 32) (f : Fields) (field : List Char) : Except Stop Fields :=
  match f.fieldId.toNat with
  | 0 => pure { f with cycle := atoi field }
  | 1 => pure { f with operation := if field = ['R'] then .READ else if field = ['W'] then .WRITE else f.operation }
  | 2 => pure { f with address := getHex 64 field }
  | 3 => do
    let d ← readData f.dataBlock field
    pure { f with dataBlock := d }
  | 4 =>
    if traceVersion = 0 then do
      let d ← f.oldDataBlock.setSize 64
      pure { f with threadId := atoi field, oldDataBlock := d }
    else do
      let d ← readData f.oldDataBlock field
      pure { f with oldDataBlock := d }
  | 5 => do
    require (traceVersion != 0)
    pure { f with threadId := atoi field }
  | _ => pure f

def readField (traceVersion : BitVec 32) (f : Fields) (field : List Char) : Except Stop Fields :=
  if field = [] then pure f
  else do
    let f ← setField traceVersion f field
    pure { f with fieldId := f.fieldId + 1 }

/-- The line that the fields make. -/
def Fields.toLine (f : Fields) : TraceLine where
  address := f.address
  operation := f.operation
  cycle := f.cycle.setWidth 64
  data := f.dataBlock
  oldData := f.oldDataBlock
  threadId := f.threadId.setWidth 64

/-- The fields of a line, which end at blanks. -/
def readLine (traceVersion : BitVec 32) (address : BitVec 64) (fullLine : List Char) : Except Stop Fields :=
  (pieces ' ' fullLine).foldlM (readField traceVersion) { address := address }

/-- The version in the first line, when it has one. -/
def versionOf (traceVersion : BitVec 32) (fullLine : List Char) : BitVec 32 :=
  if fullLine.take 4 = ['N', 'V', 'M', 'V'] then atoi (fullLine.drop 4) else traceVersion

/-- `GetNextAccess`: the returned value, the line and the reader afterwards. -/
def getNextAccess (address : BitVec 64) (r : NVMainTraceReader) (nextAccess : TraceLine) :
    Except Stop (Bool × TraceLine × NVMainTraceReader) :=
  match r.trace.or (r.traceFile.map fun text => { rest := text }) with
  | none => pure (false, nextAccess, r)
  | some trace =>
    let (fullLine, trace) := trace.getline [] '\n'
    if trace.eof then
      let dummy : TraceLine :=
        { address := 0xDEADC0DEDEADBEEF, operation := .NOP, cycle := 0, data := {}, oldData := {}, threadId := 0 }
      pure (false, dummy, { r with trace := some trace })
    else
      let traceVersion := if r.readVersion then r.traceVersion else versionOf r.traceVersion fullLine
      let (fullLine, trace) := if r.readVersion then (fullLine, trace) else trace.getline fullLine '\n'
      do
        let f ← readLine traceVersion address fullLine
        pure (true, f.toLine, { r with trace := some trace, traceVersion := traceVersion, readVersion := true })

end NVMainTraceReader

end Nvm
