import Slemu.Sha1
import Slemu.Value

/-! The builtins that print a digest: MD5 with a nonce, SHA-1, and SHA-1 with a key. -/

namespace Slemu
open BlockStream
variable {F : Type}

/-- `hex_of` -/
def hexOf (d : Bytes) : Bytes :=
  d.flatMap fun (c : UInt8) =>
    [(lit "0123456789abcdef").getD (c >>> 4).toNat 0,
     (lit "0123456789abcdef").getD (c &&& 0xF).toNat 0]

section
variable [CDouble F]

/-- `bi_llMD5String`; `c` is what stands where the digest is made. -/
def llMD5String (c : Md5) (a : List (SValue F)) : SValue F :=
  let c := md5Init c
  let c := md5Update c (argStr a 0)
  let c := md5Update c (58 :: decBytes (argInt a 1))
  .string (hexOf (md5Final c))

end

/-- `bi_llSHA1String` -/
def llSHA1String (c : Sha1) (a : List (SValue F)) : SValue F :=
  let c := sha1Init c
  let c := sha1Update c (argStr a 0)
  .string (hexOf (sha1Final c))

/-- `bi_llHMAC`, with the places of its three digests. -/
def llHMAC (c i o : Sha1) (a : List (SValue F)) : SValue F :=
  let k := argStr a 0
  let m := argStr a 1
  let key := List.replicate 64 0
  let key :=
    if 64 < k.length then put key 0 (sha1Final (sha1Update (sha1Init c) k)) else put key 0 k
  let ipad := key.map (· ^^^ 0x36)
  let opad := key.map (· ^^^ 0x5C)
  let inner := sha1Final (sha1Update (sha1Update (sha1Init i) ipad) m)
  let outer := sha1Final (sha1Update (sha1Update (sha1Init o) opad) inner)
  .string (hexOf outer)

/-- The digits of a digest, two for each byte. -/
def hexText (d : Bytes) : Bytes := d.flatMap fun c => hexBytes 2 c.toNat

theorem hexOf_eq (d : Bytes) : hexOf d = hexText d := by
  have hbyte : ∀ c : UInt8, [(lit "0123456789abcdef").getD (c >>> 4).toNat 0,
      (lit "0123456789abcdef").getD (c &&& 0xF).toNat 0] = hexBytes 2 c.toNat := by
    decide +kernel
  unfold hexOf hexText
  simp only [hbyte]

theorem llMD5String_eq [CDouble F] (c : Md5) (a : List (SValue F))
    (h : (argStr a 0 ++ 58 :: decBytes (argInt a 1)).length < 2^32) :
    llMD5String c a =
      .string (hexText (Rfc1321.md5 (argStr a 0 ++ 58 :: decBytes (argInt a 1)))) := by
  have hone := (((md5Init_took c).update (argStr a 0)).update (58 :: decBytes (argInt a 1))).final h
  unfold llMD5String
  dsimp only
  rw [← hexOf_eq]
  exact congrArg (fun d => SValue.string (hexOf d)) hone

theorem llSHA1String_eq (c : Sha1) (a : List (SValue F)) :
    llSHA1String c a = .string (hexText (Fips180.sha1 (argStr a 0))) := by
  unfold llSHA1String
  dsimp only
  rw [← hexOf_eq]
  exact congrArg (fun d => SValue.string (hexOf d)) ((sha1Init_took c).update (argStr a 0)).final

/-- A key in a block of zeros. -/
theorem put_key (k : Bytes) :
    put (List.replicate 64 0) 0 k = k ++ List.replicate (64-k.length) 0 := by
  unfold put
  rw [List.take_zero, List.nil_append, Nat.zero_add, List.drop_replicate]

theorem llHMAC_eq (c i o : Sha1) (a : List (SValue F)) :
    llHMAC c i o a =
      .string (hexText (Rfc2104.hmac Fips180.sha1 64 (argStr a 0) (argStr a 1))) := by
  have hone (x : Sha1) (m : Bytes) : sha1Final (sha1Update (sha1Init x) m) = Fips180.sha1 m :=
    ((sha1Init_took x).update m).final
  have htwo (x : Sha1) (m t : Bytes) :
      sha1Final (sha1Update (sha1Update (sha1Init x) m) t) = Fips180.sha1 (m ++ t) :=
    (((sha1Init_took x).update m).update t).final
  have hkey : (if 64 < (argStr a 0).length
      then put (List.replicate 64 0) 0 (Fips180.sha1 (argStr a 0))
      else put (List.replicate 64 0) 0 (argStr a 0)) =
      (if 64 < (argStr a 0).length then Fips180.sha1 (argStr a 0) else argStr a 0) ++
        List.replicate (64-(if 64 < (argStr a 0).length then Fips180.sha1 (argStr a 0)
          else argStr a 0).length) 0 := by
    by_cases hlong : 64 < (argStr a 0).length
    · rw [if_pos hlong, if_pos hlong]
      exact put_key _
    · rw [if_neg hlong, if_neg hlong]
      exact put_key _
  unfold llHMAC Rfc2104.hmac
  dsimp only
  rw [hone, hkey, htwo, htwo, hexOf_eq]

/-- In pieces or in one, the digests are those of the standards, and so is what the builtins make
of them. -/
theorem digests_standard [CDouble F] :
    (∀ (c : Md5) (m : Bytes) (ps : List Bytes), ps.flatten = m → m.length < 2^32 →
      md5Final (ps.foldl md5Update (md5Init c)) = Rfc1321.md5 m) ∧
    (∀ (c : Sha1) (m : Bytes) (ps : List Bytes), ps.flatten = m →
      sha1Final (ps.foldl sha1Update (sha1Init c)) = Fips180.sha1 m) ∧
    (∀ (c : Md5) (a : List (SValue F)),
      (argStr a 0 ++ 58 :: decBytes (argInt a 1)).length < 2^32 →
      llMD5String c a =
        .string (hexText (Rfc1321.md5 (argStr a 0 ++ 58 :: decBytes (argInt a 1))))) ∧
    ∀ (c i o : Sha1) (a : List (SValue F)), llHMAC c i o a =
      .string (hexText (Rfc2104.hmac Fips180.sha1 64 (argStr a 0) (argStr a 1))) := by
  refine ⟨?_, ?_, llMD5String_eq, llHMAC_eq⟩
  · intro c m ps hps hm
    rw [← hps] at hm ⊢
    exact md5_pieces c hm
  · intro c m ps hps
    rw [← hps]
    exact sha1_pieces c ps

/-- A stack of zeros. -/
def blankMd5 : Md5 := ⟨Vector.replicate 4 0, 0, 0, List.replicate 64 0, by decide⟩

theorem digests_hello :
    md5Final ([lit "hel", [], lit "lo:0"].foldl md5Update (md5Init blankMd5)) =
      Rfc1321.md5 (lit "hello:0") ∧
    llMD5String blankMd5 [(.string (lit "hello") : SValue ℚ), .int 0] =
      .string (lit "31d46731a4422c15db9cbee93491ca47") := by
  refine ⟨(digests_standard (F := ℚ)).1 _ _ _ (by decide +kernel) (by decide +kernel), ?_⟩
  refine ((digests_standard (F := ℚ)).2.2.1 _ _ (by decide +kernel)).trans (congrArg _ ?_)
  decide +kernel

end Slemu
