import Gem5Nvmain.Lib.Blit

/- The circular buffer of `base/circlebuf.cc`.

  The characters between `start` and `stop` are not read yet, and `size` counts them apart. A signed sum that does not
  fit has no result, and neither has an access outside the buffer or outside the caller's array. -/
namespace Gem5.Base
open Lib

/-- `CircleBuf`. -/
structure CircleBuf (α : Type) where
  buf : List α
  rollover : Bool
  buflen : Int
  size : Int
  start : Int
  stop : Int

/-- An `int` expression. -/
def int (x : Int) : Except Stop Int := if -2 ^ 31 ≤ x ∧ x < 2 ^ 31 then .ok x else .error .outOfRange

/-- The characters that `out.write(l + i, n)` puts out. -/
def chars {α : Type} (l : List α) (i n : Int) : Except Stop (List α) :=
  if 0 ≤ i ∧ 0 ≤ n ∧ i + n ≤ l.length then .ok ((l.drop i.toNat).take n.toNat) else .error .outOfRange

namespace CircleBuf
variable {α : Type}

/-- `CircleBuf::CircleBuf`: `init` is what the new array holds. -/
def new (init : List α) : CircleBuf α where
  buf := init
  rollover := false
  buflen := init.length
  size := 0
  start := 0
  stop := 0

/-- `CircleBuf::flush`. -/
def flush (s : CircleBuf α) : CircleBuf α := { s with start := 0, stop := 0, rollover := false }

/-- `CircleBuf::read(char *b, int len)`. -/
def read (s : CircleBuf α) (b : List α) (len : Int) : Except Stop (List α × CircleBuf α) := do
  let size ← int (s.size - len)
  let size := if size < 0 then 0 else size
  if s.start < s.stop then do
    let len := min len (s.stop - s.start)
    let b ← memcpy b 0 s.buf s.start len
    .ok (b, { s with size := size, start := s.start + len })
  else do
    let endlen := s.buflen - s.start
    if len < endlen then do
      let b ← memcpy b 0 s.buf s.start len
      .ok (b, { s with size := size, start := s.start + len })
    else do
      let b ← memcpy b 0 s.buf s.start endlen
      let start := min (len - endlen) s.stop
      let b ← memcpy b endlen s.buf 0 start
      .ok (b, { s with size := size, start := start })

/-- `CircleBuf::read(ostream &out)`. -/
def readOut (s : CircleBuf α) : Except Stop (List α × CircleBuf α) :=
  if s.start < s.stop then do
    let out ← chars s.buf s.start (s.stop - s.start)
    .ok (out, { s with size := 0, start := s.stop })
  else do
    let out ← chars s.buf s.start (s.buflen - s.start)
    let out' ← chars s.buf 0 s.stop
    .ok (out ++ out', { s with size := 0, start := s.stop })

/-- The part of `CircleBuf::write` that copies less than a whole buffer. -/
def copyIn (s : CircleBuf α) (b : List α) (len : Int) : Except Stop (CircleBuf α) := do
  let sum ← int (s.stop + len)
  if sum ≤ s.buflen then do
    let buf ← memcpy s.buf s.stop b 0 len
    .ok { s with buf := buf, stop := sum }
  else do
    let endLen := s.buflen - s.stop
    let buf ← memcpy s.buf s.stop b 0 endLen
    let buf ← memcpy buf 0 b endLen (len - endLen)
    .ok { s with buf := buf, stop := len - endLen, rollover := true }

/-- The start after a copy that moved the stop to `stop`. -/
def startAfter (s : CircleBuf α) (stop : Int) : Except Stop Int :=
  if s.start > s.stop ∧ s.start < stop ∨ s.start < s.stop ∧ stop < s.stop then int (stop + 1) else .ok s.start

/-- `CircleBuf::write(const char *b, int len)`. -/
def write (s : CircleBuf α) (b : List α) (len : Int) : Except Stop (CircleBuf α) :=
  if len ≤ 0 then .ok s
  else do
    let size ← int (s.size + len)
    let size := if size > s.buflen then s.buflen else size
    if len ≥ s.buflen then do
      let buf ← memcpy s.buf 0 b (len - s.buflen) s.buflen
      .ok { s with buf := buf, size := size, start := 0, stop := s.buflen, rollover := true }
    else do
      let t ← { s with size := size }.copyIn b len
      let start ← s.startAfter t.stop
      .ok { t with start := start }

end CircleBuf

end Gem5.Base
