/-!
# Error numbers

The codes that the modelled kernel functions return.
-/

namespace CseOs.Kernel

inductive Errno where
  | einval
  | efault
  | enametoolong
  | enomem
  | eio
  | enoent
  | enotdir
  | eisdir
  | eexist
  | exdev
  | eagain
  | espipe
  | eunimp
  | enxio
  | enodev
  | ebusy
  | eioctl
  | enotempty
  | erange
  | enospc
  | enoexec
deriving DecidableEq, Repr

end CseOs.Kernel
