import Xv6Filter.Kernel.Types
import Xv6Filter.Lib.Texts

namespace Xv6Filter.Grep
open Lib Function

abbrev newline : Byte := 10
abbrev dollar : Byte := 36
abbrev star : Byte := 42
abbrev dot : Byte := 46
abbrev caret : Byte := 94

/-- `sizeof(buf)`; a C string is the list of its bytes before the NUL. -/
abbrev bufsize : Nat := 1024

/-- `matchstar`: search for `c*re` at the beginning of the text, where `here` is `matchhere(re, .)`. -/
def matchstar (c : Byte) (here : List Byte → Bool) : List Byte → Bool
  | [] => here []
  | b :: text => here (b :: text) || (b == c || c == dot) && matchstar c here text

/-- `matchhere`: search for the pattern at the beginning of the text. -/
def matchhere : List Byte → List Byte → Bool
  | [], _ => true
  | [c], text =>
    if c = dollar then text.isEmpty
    else
      match text with
      | [] => false
      | b :: _ => c == dot || c == b
  | c :: d :: re, text =>
    if d = star then matchstar c (matchhere re) text
    else
      match text with
      | [] => false
      | b :: text => (c == dot || c == b) && matchhere (d :: re) text

def matchAny (re : List Byte) : List Byte → Bool
  | [] => matchhere re []
  | b :: text => matchhere re (b :: text) || matchAny re text

def matchText : List Byte → List Byte → Bool
  | [], text => matchAny [] text
  | c :: re, text => if c = caret then matchhere re text else matchAny (c :: re) text

/-- `strchr` from `s` on, in the `n` bytes up to the end of the buffer. -/
def strchr (buf : Nat → Byte) (c : Byte) : Nat → Nat → Option Nat
  | 0, _ => none
  | n + 1, s => if buf s = 0 then none else if buf s = c then some s else strchr buf c n (s + 1)

def copyUp (buf : Nat → Byte) (dst src : Nat) : Nat → Nat → Byte
  | 0 => buf
  | n + 1 => copyUp (update buf dst (buf src)) (dst + 1) (src + 1) n

def copyDown (buf : Nat → Byte) (dst src : Nat) : Nat → Nat → Byte
  | 0 => buf
  | n + 1 => copyDown (update buf (dst + n) (buf (src + n))) dst src n

def memmove (buf : Nat → Byte) (dst src n : Nat) : Nat → Byte :=
  if src > dst then copyUp buf dst src n else copyDown buf dst src n

/-- What the inner loop of `grep` changes: the buffer, `p`, and what was written. -/
structure Scan where
  buf : Nat → Byte
  p : Nat
  out : List Byte

def Scan.line (pattern : List Byte) (s : Scan) (q : Nat) : Scan :=
  let buf := update s.buf q 0
  if matchText pattern (stringAt buf (bufsize - s.p) s.p) then
    let buf := update buf q newline
    ⟨buf, q + 1, s.out ++ slice buf s.p (q + 1 - s.p)⟩
  else ⟨buf, q + 1, s.out⟩

def Scan.lines (pattern : List Byte) : Nat → Scan → Scan
  | 0, s => s
  | fuel + 1, s =>
    match strchr s.buf newline (bufsize - s.p) s.p with
    | none => s
    | some q => Scan.lines pattern fuel (s.line pattern q)

/-- What `read` returns when asked for `n` bytes: none at the end of the file, else as many as it
likes, `want` if it can. -/
def readCount (want n left : Nat) : Nat := min (max 1 want) (min n left)

/-- The outer loop of `grep`: `m` bytes in the buffer, `rest` of the file still to be read, `chunk i`
bytes that the `i`th `read` would return. -/
def grepLoop (pattern : List Byte) (chunk : Nat → Nat) :
    Nat → Nat → (Nat → Byte) → Nat → List Byte → List Byte → Option (List Byte)
  | 0, _, _, _, _, _ => none
  | fuel + 1, i, buf, m, rest, out =>
    let n := readCount (chunk i) (bufsize - m - 1) rest.length
    if n > 0 then
      let buf := splice buf m (rest.take n)
      let m := m + n
      let buf := update buf m 0
      let s := Scan.lines pattern bufsize ⟨buf, 0, out⟩
      if m > 0 then
        grepLoop pattern chunk fuel (i + 1) (memmove s.buf 0 s.p (m - s.p)) (m - s.p) (rest.drop n) s.out
      else grepLoop pattern chunk fuel (i + 1) s.buf m (rest.drop n) s.out
    else some out

def grep (pattern : List Byte) (chunk : Nat → Nat) (fuel : Nat) (content : List Byte) : Option (List Byte) :=
  grepLoop pattern chunk fuel 0 (fun _ => 0) 0 content []

end Xv6Filter.Grep
