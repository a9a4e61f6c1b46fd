/-!
Error numbers returned by the system calls and file operations
(`lib/result.hpp`). A `Result<T>` of the source is `Except Errno T`. A call that
may put its task on a wait list returns a `Blocking` value.
-/

namespace Nyan

inductive Errno where
  | EINVAL
  | ENOMEM
  | ENOSYS
  | EPIPE
  | ECHILD
  | EBADF
  | EMFILE
  | ENOENT
  | EEXIST
  | ENOTDIR
  | EISDIR
  | ELOOP
  | ENXIO
  | EFAULT
  | EOVERFLOW
  | EXDEV
  | EINTR
  | EACCES
  | ENOTTY
  | ERANGE
  | ESPIPE
  | ESRCH
  deriving DecidableEq, Repr

/-- A call either returns a value or leaves its task waiting. -/
inductive Blocking (α : Type) where
  | waits
  | returns (value : α)

end Nyan
