import XClone.Kernel.FileOps

/-! # The key: `proc_key.c`

A write to the entry `enc_key_file` puts a new buffer in the place of the old one, which it releases.
-/
namespace XClone

namespace EncKey

def EFAULT : ℤ := 14

/-- Which of the two calls of a write fail. -/
structure Faults where
  kzalloc : Bool := false
  copyFromUser : Bool := false
deriving DecidableEq, Repr

/-- `my_proc_write`: its result, and the memory and the key that it leaves. The buffer is cleared, so the last byte of a key is
zero. -/
def myProcWrite (fails : Faults) (buffer : List Byte) (heap : Heap) (encKey : Ptr) : ℤ × Heap × Ptr :=
  if fails.kzalloc then (-ENOMEM,heap,encKey)
  else
    let tmp := heap.next
    if fails.copyFromUser then
      -- an error that is not negative
      (EFAULT,(heap.alloc (List.replicate (buffer.length + 1) 0)).free (some tmp),encKey)
    else (buffer.length,(heap.alloc (buffer ++ [0])).free encKey,some tmp)

end EncKey

end XClone
