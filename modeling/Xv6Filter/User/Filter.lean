import Xv6Filter.Kernel.Syscall

namespace Xv6Filter

/-- A stub of usys.pl in process `i`: it loads the number and the first argument, and `ecall`
returns with the result in `a0`. -/
def Handlers.stub (h : Handlers) (i : Slot) (num a0 : U64) (k : Kernel) : Option (U64 × Kernel) :=
  let p := k.proc i
  match h.syscall i (k.setProc i { p with trapframe := { p.trapframe with a7 := num, a0 := a0 } }) with
  | .back k => some ((k.proc i).trapframe.a0, k)
  | _ => none

/-- The numbers that the profile "PURE_COMPUTE" blocks: `open`, `write`, `read`, `mknod`, `unlink`,
`link`, `mkdir` and `chdir`. -/
def pureCompute : List Nat := [15, 16, 5, 17, 18, 19, 20, 9]

def pureComputeName : List Byte := bytes ['P', 'U', 'R', 'E', '_', 'C', 'O', 'M', 'P', 'U', 'T', 'E']

def Handlers.sandboxApplyProfile (h : Handlers) (i : Slot) (profile : List Byte) (k : Kernel) :
    Option (U64 × Kernel) :=
  if profile = pureComputeName then
    h.stub i 23 (pureCompute.foldl (fun mask n => mask ||| 1#64 <<< n) 0) k
  else some (minusOne, k)

def Handlers.sandboxBlockSyscall (h : Handlers) (i : Slot) (syscallNum : Nat) (k : Kernel) :
    Option (U64 × Kernel) :=
  h.stub i 23 (1#64 <<< syscallNum) k

/-- Calls of `sandbox_block_syscall` one after another, with what they return. -/
def Handlers.sandboxBlockAll (h : Handlers) (i : Slot) : List Nat → Kernel → Option (List U64 × Kernel)
  | [], k => some ([], k)
  | n :: ns, k => do
    let (r, k) ← h.sandboxBlockSyscall i n k
    let (rs, k) ← h.sandboxBlockAll i ns k
    some (r :: rs, k)

end Xv6Filter
