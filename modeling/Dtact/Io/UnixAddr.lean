import Mathlib.Algebra.Group.Nat.Defs
import Mathlib.Data.List.TakeWhile

/-!
# Addresses of Unix sockets

`unix_path_to_libc` writes a path and a terminating zero into a `sockaddr_un`, and returns the
number of bytes that count. `sockaddr_un_to_addr` takes these bytes up to the first zero; none at
all mean an unnamed socket.
-/

namespace Dtact.Io.UnixAddr

/-- The sizes of `sun_path` and of `sa_family_t`, which differ between platforms. -/
structure Platform where
  sunPathCap : Nat
  familySize : Nat
  fits : familySize + sunPathCap < 2 ^ 32

def linux : Platform := ⟨108, 2, by decide⟩

structure SockaddrUn (pf : Platform) where
  sunFamily : Nat
  sunPath : List UInt8
  length_sunPath : sunPath.length = pf.sunPathCap

def afUnix : Nat := 1

inductive ErrorKind
  | invalidInput

structure IoError where
  kind : ErrorKind
  message : String

/-- The length is a `socklen_t`, of 32 bits. -/
def unixPathToLibc (pf : Platform) (path : List UInt8) : Except IoError (SockaddrUn pf × Nat) :=
  if h : pf.sunPathCap ≤ path.length then
    .error ⟨.invalidInput, "unix socket path too long for sockaddr_un::sun_path"⟩
  else
    let zeroed := List.replicate pf.sunPathCap 0
    .ok (⟨afUnix, path ++ zeroed.drop path.length, by simp [zeroed]; omega⟩,
      (pf.familySize + path.length + 1) % 2 ^ 32)

structure DtactUnixSocketAddr where
  asPathname : Option (List UInt8)
deriving DecidableEq

/-- `bytes.split(|&b| b == 0).next()` -/
def beforeZero (bytes : List UInt8) : List UInt8 := bytes.takeWhile (· ≠ 0)

def sockaddrUnToAddr {pf : Platform} (sun : SockaddrUn pf) (len : Nat) : DtactUnixSocketAddr :=
  if len ≤ pf.familySize then ⟨none⟩
  else
    let pathLen := min (len - pf.familySize) sun.sunPath.length
    let bytes := beforeZero (sun.sunPath.take pathLen)
    if bytes = [] then ⟨none⟩ else ⟨some bytes⟩

section

variable {pf : Platform} {path : List UInt8} {sun : SockaddrUn pf} {len : Nat}

theorem beforeZero_append_zero : beforeZero (path ++ [0]) = beforeZero path := by
  unfold beforeZero
  rw [List.takeWhile_append]
  split
  · next hall =>
    have hself := (List.takeWhile_prefix (· ≠ (0 : UInt8))).eq_of_length hall
    simpa using hself.symm
  · rfl

theorem beforeZero_eq_self_iff : beforeZero path = path ↔ 0 ∉ path := by
  unfold beforeZero
  rw [List.takeWhile_eq_self_iff]
  constructor
  · intro h hzero
    simpa using h 0 hzero
  · intro h b hb
    have hne : b ≠ 0 := ne_of_mem_of_not_mem hb h
    simpa using hne

/-- The path is read back up to its first zero. -/
theorem decode_encode (h : unixPathToLibc pf path = .ok (sun, len)) :
    sockaddrUnToAddr sun len =
      ⟨if beforeZero path = [] then none else some (beforeZero path)⟩ := by
  unfold unixPathToLibc at h
  split at h
  · cases h
  · next hshort =>
    obtain ⟨rfl, rfl⟩ := Prod.mk.inj (Except.ok.inj h)
    have hfits := pf.fits
    have hlen : (pf.familySize + path.length + 1) % 2 ^ 32 = pf.familySize + path.length + 1 :=
      Nat.mod_eq_of_lt (by omega)
    -- one zero of the terminator counts
    have hread : (path ++ (List.replicate pf.sunPathCap 0).drop path.length).take
        (path.length + 1) = path ++ [0] := by
      obtain ⟨k, hk⟩ := Nat.exists_eq_add_one_of_ne_zero (Nat.sub_ne_zero_of_lt (not_le.mp hshort))
      rw [List.drop_replicate, hk, List.replicate_succ, List.take_length_add_append]
      rfl
    have hmin : min (pf.familySize + path.length + 1 - pf.familySize)
        (path ++ (List.replicate pf.sunPathCap 0).drop path.length).length = path.length + 1 := by
      simp only [List.length_append, List.length_drop, List.length_replicate]
      omega
    unfold sockaddrUnToAddr
    rw [hlen, if_neg (by omega)]
    simp only [hmin, hread, beforeZero_append_zero]
    split <;> rfl

theorem survives_iff (hne : path ≠ []) (h : unixPathToLibc pf path = .ok (sun, len)) :
    sockaddrUnToAddr sun len = ⟨some path⟩ ↔ 0 ∉ path := by
  rw [decode_encode h, ← beforeZero_eq_self_iff]
  constructor
  · intro heq
    split at heq
    · cases heq
    · exact Option.some.inj (DtactUnixSocketAddr.mk.inj heq)
  · intro heq
    rw [heq, if_neg hne]

/-- A path survives exactly if it has no zero, and such paths denote different addresses. -/
theorem path_survives_iff (hne : path ≠ []) (h : unixPathToLibc pf path = .ok (sun, len)) :
    (sockaddrUnToAddr sun len = ⟨some path⟩ ↔ 0 ∉ path) ∧
      ∀ path' sun' len', path' ≠ [] → unixPathToLibc pf path' = .ok (sun', len') →
        0 ∉ path → 0 ∉ path' →
        (sockaddrUnToAddr sun len).asPathname = (sockaddrUnToAddr sun' len').asPathname →
        path = path' := by
  refine ⟨survives_iff hne h, fun path' sun' len' hne' h' hzero hzero' heq => ?_⟩
  rw [(survives_iff hne h).mpr hzero, (survives_iff hne' h').mpr hzero'] at heq
  exact Option.some.inj heq

end

theorem path_survives_iff_tmpA : ∃ sun len, unixPathToLibc linux [47, 97] = .ok (sun, len) ∧
    sockaddrUnToAddr sun len = ⟨some [47, 97]⟩ := by
  refine ⟨_, _, rfl, ?_⟩
  exact (path_survives_iff (by decide) rfl).1.mpr (by decide)

/-- The path `a\0b` is read back as `a`, the address of another path, and `\0b` as unnamed. -/
theorem zero_cuts_path :
    (∃ sun len sun' len', unixPathToLibc linux [97, 0, 98] = .ok (sun, len) ∧
      unixPathToLibc linux [97] = .ok (sun', len') ∧
      sockaddrUnToAddr sun len = ⟨some [97]⟩ ∧ sockaddrUnToAddr sun' len' = ⟨some [97]⟩) ∧
    ∃ sun len, unixPathToLibc linux [0, 98] = .ok (sun, len) ∧
      sockaddrUnToAddr sun len = ⟨none⟩ :=
  ⟨⟨_, _, _, _, rfl, rfl, by decide, by decide⟩, _, _, rfl, by decide⟩

end Dtact.Io.UnixAddr
