import Xv6Filter.Kernel.State
import Xv6Filter.Fs.Inode

namespace Xv6Filter.Kernel

def filealloc (k : Kernel) : Option (Fp × Kernel) :=
  match (List.finRange nfile).find? (fun f => decide ((k.file f).ref = 0)) with
  | none => none
  | some f => some (f, k.setFile f { k.file f with ref := 1 })

/-- `fdalloc`: the first free descriptor of the caller takes over the file. -/
def fdalloc (k : Kernel) (i : Slot) (f : Fp) : Option (Fin nofile × Kernel) :=
  match (List.finRange nofile).find? (fun fd => ((k.proc i).ofile fd).isNone) with
  | none => none
  | some fd => some (fd, k.setProc i
      { k.proc i with ofile := Function.update (k.proc i).ofile fd (some f) })

/-- `pipeclose`: close one end, wake the other, free the pipe when both are closed. -/
def pipeclose (k : Kernel) (i : Slot) (pi : Nat) (writable : Bool) : Kernel :=
  match k.pipe pi with
  | none => k
  | some q =>
    let q := if writable then { q with writeopen := false } else { q with readopen := false }
    let k := k.wakeup i (if writable then .nread pi else .nwrite pi)
    let q' := if q.readopen = false ∧ q.writeopen = false then none else some q
    { k with pipe := Function.update k.pipe pi q' }

/-- `fileclose`: drop a reference and close the object at the last one. -/
def fileclose (k : Kernel) (i : Slot) (f : Fp) : Kern Kernel :=
  let ff := k.file f
  if ff.ref < 1 then .error (.panic .fileclose)
  else if 0 < ff.ref - 1 then .ok (k.setFile f { ff with ref := ff.ref - 1 })
  else
    let k := k.setFile f { ff with ref := 0, type := .none }
    match ff.type with
    | .none => .ok k
    | .pipe => .ok (k.pipeclose i ff.pipe ff.writable)
    | .inode | .device =>
      match k.fs.iput ff.ip with
      | .error why => .error why
      | .ok fs => .ok { k with fs := fs }

end Xv6Filter.Kernel
