import Xv6Filter.Fs.Dir

namespace Xv6Filter

/-- Storing into a local array of `cap` bytes; `none` when the index leaves it. -/
def store (cap : Nat) (b : Nat → Byte) (i : Nat) (c : Byte) : Option (Nat → Byte) :=
  if i < cap then some (Function.update b i c) else none

def zeroChar : Nat := 48

/-- `while(n > 0) { temp[j++] = (n % 10) + '0'; n /= 10; }`. A turn makes `n`
smaller, so `n` turns are enough. -/
def fillTemp : Nat → Nat → Nat → (Nat → Byte) → Option (Nat × (Nat → Byte))
  | 0, _, j, temp => some (j, temp)
  | turns + 1, n, j, temp =>
    if n = 0 then some (j, temp)
    else match store 16 temp j (UInt8.ofNat (n % 10 + zeroChar)) with
      | none => none
      | some temp => fillTemp turns (n / 10) (j + 1) temp

def copyBack (temp : Nat → Byte) : Nat → Nat → (Nat → Byte) → Option (Nat × (Nat → Byte))
  | 0, i, buf => some (i, buf)
  | j + 1, i, buf =>
    match store 16 buf i (temp j) with
    | none => none
    | some buf => copyBack temp j (i + 1) buf

/-- `int_to_str(n, buf)` with `buf` of 16 bytes. A negative number gives the empty string. -/
def intToStr (n : Int) (buf : Nat → Byte) : Option (Nat → Byte) :=
  if n = 0 then
    match store 16 buf 0 (UInt8.ofNat zeroChar) with
    | none => none
    | some buf => store 16 buf 1 0
  else
    match fillTemp n.toNat n.toNat 0 (fun _ => 0) with
    | none => none
    | some (j, temp) =>
      match copyBack temp j 0 buf with
      | none => none
      | some (i, buf) => store 16 buf i 0

/-- `for(int i = 0; src[i]; i++) msg[len++] = src[i];` where `left` bytes of `src`
are still inside its array. -/
def appendStr (src : Nat → Byte) : Nat → Nat → Nat → (Nat → Byte) → Option (Nat × (Nat → Byte))
  | 0, _, _, _ => none
  | left + 1, i, len, msg =>
    if src i = 0 then some (len, msg)
    else match store 64 msg len (src i) with
      | none => none
      | some msg => appendStr src left (i + 1) (len + 1) msg

/-- A string constant as the array the compiler lays out, with its NUL. -/
def cstring (s : List Byte) : Nat → Byte := fun i => s.getD i 0

def auditHead : List Byte := bytes ['A', 'U', 'D', 'I', 'T', ':', ' ', 'P', 'I', 'D', '=']

def auditMid : List Byte :=
  bytes [' ', 'B', 'L', 'O', 'C', 'K', 'E', 'D', ' ', 'S', 'Y', 'S', 'C', 'A', 'L', 'L', '=']

def newline : Byte := 10

def auditMsg (pid num : Int) : Option (Nat × (Nat → Byte)) := do
  let numBuf ← intToStr pid (fun _ => 0)
  let (len, msg) ← appendStr numBuf 16 0 11 (cstring auditHead)
  let (len, msg) ← appendStr (cstring auditMid) (auditMid.length + 1) 0 len msg
  let numBuf ← intToStr num numBuf
  let (len, msg) ← appendStr numBuf 16 0 len msg
  let msg ← store 64 msg len newline
  let msg ← store 64 msg (len + 1) 0
  pure (len + 1, msg)

def auditPath : List Byte := bytes ['/', 'a', 'u', 'd', 'i', 't', '.', 'l', 'o', 'g']

abbrev fromKernel (msg : List Byte) : Unit → Nat → Nat → Unit × List Byte × Bool :=
  fun _ tot m => ((), (msg.drop tot).take m, true)

/-- `if(ip->type == T_FILE) writei(ip, 0, (uint64)msg, ip->size, len);` -/
def Fs.auditAppend (fs : Fs) (ip : Ip) (record : List Byte) : Kern Fs :=
  if (fs.inode ip).din.type = tFile then
    match fs.writeiKernel ip record (fs.inode ip).din.size with
    | .error why => .error why
    | .ok (_, fs) => .ok fs
  else .ok fs

def Fs.auditLogWrite (fs : Fs) (pid num : I32) : Kern Fs :=
  match auditMsg pid.toInt num.toInt with
  | none => .error .overrun
  | some (len, msg) => do
    let (found, fs) ← fs.namei none auditPath
    match found with
    | none => pure fs
    | some ip =>
      let fs ← fs.ilock ip
      let fs ← fs.auditAppend ip (Lib.slice msg 0 len)
      fs.iunlockput ip

end Xv6Filter
