import Xv6Filter.Kernel.Links
import Xv6Filter.Kernel.Machine

namespace Xv6Filter

/-- `ireclaim`: free the inodes without links that a crash left behind. -/
def Fs.ireclaim (fs : Fs) : Kern Fs := ((List.range fs.sb.ninodes).drop 1).foldlM Fs.ireclaimStep fs

def rootPath : List Byte := [Fs.slash]

/-- From `userinit` to the end of `fsinit`: init stands in the root directory, nothing is
open, and what was left behind on the disk is gone. -/
def bootDisk (fs : Fs) : Kern Kernel := do
  let (root, fs) ← fs.namei none rootPath
  let fs ← fs.ireclaim
  let k := bootKernel fs bareFiles
  pure (k.setProc 0 { k.proc 0 with cwd := root })

end Xv6Filter
