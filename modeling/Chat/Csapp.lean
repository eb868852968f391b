import Chat.Message
import Mathlib.Data.PNat.Defs

/-! The buffered reader and the writer of `csapp.c`, over descriptors whose future `read` and
`write` results are given. -/
namespace Chat

/-- `RIO_BUFSIZE`: how many bytes each `read` asks for. -/
def rioBufsize : ℕ := 8192

/-- The bytes of one successful `read`. -/
abbrev Chunk := { bs : Bytes // bs ≠ [] ∧ bs.length ≤ rioBufsize }

/-- One return of `read`. Where a list of them ends, the peer has closed and every further
`read` returns 0. -/
inductive ReadResult
  | data (bs : Chunk)
  | eintr
  | error

/-- `rio_t`: the `rio_cnt` bytes from `rio_bufptr` on, and the descriptor's reads to come. -/
structure Rio where
  unread : Bytes := []
  reads : List ReadResult := []

/-- The refill loop of `rio_read`: `none` is an error other than EINTR, no bytes is EOF. -/
def refill : List ReadResult → Option Bytes × List ReadResult
  | [] => (some [], [])
  | .data bs :: rs => (some bs, rs)
  | .eintr :: rs => refill rs
  | .error :: rs => (none, rs)

/-- `none` is the return value -1; otherwise the bytes copied, whose number is returned. -/
def rioRead (rp : Rio) (n : ℕ) : Option Bytes × Rio :=
  match rp.unread with
  | b :: bs => (some ((b :: bs).take n), { rp with unread := (b :: bs).drop n })
  | [] =>
    match refill rp.reads with
    | (some bs, rs) => (some (bs.take n), ⟨bs.drop n, rs⟩)
    | (none, rs) => (none, ⟨[], rs⟩)

/-- How the loop of `rio_readlineb` is left: to the terminator, by `return 0` or by
`return -1`. -/
inductive LineEnd
  | terminate
  | eof
  | error

/-- The loop of `rio_readlineb`. `line` is what has been stored, so `n` is one more than its
length; the first argument counts the iterations left before `n` reaches `maxlen`. -/
def readLoop : ℕ → Bytes → Rio → LineEnd × Bytes × Rio
  | 0, line, rp => (.terminate, line, rp)
  | k + 1, line, rp =>
    match rioRead rp 1 with
    | (some (c :: _), rp) =>
      if c = newline then (.terminate, line ++ [c], rp) else readLoop k (line ++ [c]) rp
    | (some [], rp) => if line = [] then (.eof, line, rp) else (.terminate, line, rp)
    | (none, rp) => (.error, line, rp)

/-- The return value, the user's buffer afterwards and the reader. At EOF without data the
buffer keeps what it held. -/
def rioReadlineb (rp : Rio) (usrbuf : Bytes) (maxlen : ℕ) : Int × Bytes × Rio :=
  match readLoop (maxlen - 1) [] rp with
  | (.terminate, line, rp) => (line.length, line ++ 0 :: usrbuf.drop (line.length + 1), rp)
  | (.eof, line, rp) => (0, line ++ usrbuf.drop line.length, rp)
  | (.error, line, rp) => (-1, line ++ usrbuf.drop line.length, rp)

/-- One return of `write`: how many bytes were taken, or a failure and whether it is EINTR. -/
inductive WriteResult
  | wrote (n : ℕ+)
  | failed (eintr : Bool)

/-- The writing side of a descriptor. Where `writes` ends, a `write` takes all it is given. -/
structure Wire where
  writes : List WriteResult := []
  written : Bytes := []

/-- The loop of `rio_writen`: whether it completed, the writes left and the bytes taken. -/
def writeLoop : List WriteResult → Bytes → Bool × List WriteResult × Bytes
  | ws, [] => (true, ws, [])
  | [], bs => (true, [], bs)
  | .wrote n :: ws, bs =>
    let (ok, ws, out) := writeLoop ws (bs.drop n)
    (ok, ws, bs.take n ++ out)
  | .failed true :: ws, bs => writeLoop ws bs
  | .failed false :: ws, _ => (false, ws, [])

def rioWriten (fd : Wire) (usrbuf : Bytes) (n : ℕ) : Int × Wire :=
  match writeLoop fd.writes (usrbuf.take n) with
  | (ok, ws, out) => (if ok then n else -1, ⟨ws, fd.written ++ out⟩)

end Chat
