import Xv6Filter.Kernel.Descriptor

namespace Xv6Filter.Kernel

/-- `kfork` by slot `i`, run without interleaving: -1 without a free slot or without memory. -/
def kfork (k : Kernel) (i : Slot) (mem : ForkMem) : Kern (U64 × Kernel) :=
  match (List.finRange nproc).find? (fun j => decide ((k.proc j).state = .unused)) with
  | none => .ok (minusOne, k)
  | some j =>
    match k.kforkFound i j mem with
    | .error why => .error why
    | .ok (false, k) => .ok (minusOne, k)
    | .ok (true, k) =>
      let k := k.setProc j { k.proc j with parent := some i, state := .runnable }
      .ok ((k.proc j).pid.signExtend 64, k)

def closeOpen (i : Slot) (k : Kernel) (fd : Fin nofile) : Kern Kernel :=
  match (k.proc i).ofile fd with
  | none => .ok k
  | some f =>
    match k.fileclose i f with
    | .error why => .error why
    | .ok k => .ok (k.setOfile i fd none)

def kexit (k : Kernel) (i : Slot) (status : I32) : Kern Kernel :=
  if i = k.initproc then .error (.panic .initExiting)
  else do
    let k ← (List.finRange nofile).foldlM (closeOpen i) k
    match (k.proc i).cwd with
    | none => throw (.panic .kerneltrap)
    | some cwd =>
      let fs ← k.fs.iput cwd
      let k := { k with fs := fs }.setProc i { k.proc i with cwd := none }
      pure (k.kexitLocked i status)

/-- `kwait`: the first exited child, if its status can be delivered. With children that
still run the call does not come back. -/
def kwait (k : Kernel) (i : Slot) (addr : U64) (copied : Bool) : Kern (U64 × Kernel) :=
  match k.kwaitScan i with
  | .zombie j =>
    if addr ≠ 0 ∧ copied = false then .ok (minusOne, k)
    else .ok ((k.proc j).pid.signExtend 64, k.freeproc j)
  | .alive => if (k.proc i).killed ≠ 0 then .ok (minusOne, k) else .error .blocked
  | .none => .ok (minusOne, k)

end Xv6Filter.Kernel
