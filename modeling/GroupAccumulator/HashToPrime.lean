import GroupAccumulator.Theory.FirstHit
import GroupAccumulator.Hash
import GroupAccumulator.PrimalityExact
import GroupAccumulator.Rug

/-!
# Hashing to a prime

The functions of `hash/mod.rs` over the digest of `blake2_rfc`, which is a parameter.
`hash_to_prime` hashes the value with a counter behind it, sets the lowest bit of the
first byte and reads the bytes as a little-endian number, until that is a probable
prime.  It returns the candidate of the least counter that passes, panics where the
test panics before that, and otherwise does not return (`hash_to_prime_exact`).

The accumulator is stated over a `Hashing`, two functions of the bytes fed.
`hashingOf` is the one these functions compute wherever they return, and
`separates_of_blake2` what has to be true of the digest for it to tell elements apart.
-/

namespace GroupAccumulator

open Theory Primality

/-! ## The hasher -/

/-- The 32-byte digest `blake2_rfc` computes of the bytes it is fed. -/
structure Blake2 where
  digest : List UInt8 → Vector UInt8 32

/-- `u64`, least significant byte first. -/
instance : Hash UInt64 where
  feed x := toBytesLe 8 x.toNat

section

variable (B : Blake2) {α : Type} [Hash α]

/-- `hash` with the `Blake2b` hasher: a value feeds its bytes, and the digest is taken. -/
def hash (t : α) : Vector UInt8 32 := B.digest (Hash.feed t)

/-- Calls `hash` with a Blake2b hasher; the digest most significant byte first. -/
def blake2b (t : α) : ℤ := ofBytesLe (hash B t).toList.reverse

/-- `hash[0] |= 1`. -/
def setLowest (digest : Vector UInt8 32) : Vector UInt8 32 := digest.set 0 (digest[0] ||| 1)

/-- The candidate for one value of the counter. -/
def candidatePrime (t : α) (counter : UInt64) : U256 :=
  Uint.fromBytes (setLowest (hash B (t, counter))).toList

variable (G : Gmp)

/-- The loop of `hash_to_prime`. -/
def hashToPrimeLoop (t : α) : ℕ → UInt64 → Exec ℤ
  | 0, _ => .error .outOfFuel
  | fuel + 1, counter => do
    let candidate := candidatePrime B t counter
    if ← isProbPrime G candidate then
      -- `Integer::from`, the digits of the limbs
      return (candidate.limbs.toNat : ℤ)
    else
      hashToPrimeLoop t fuel (counter + 1)

/-- Hashes `t` to an odd prime. -/
def hashToPrime (fuel : ℕ) (t : α) : Exec ℤ := hashToPrimeLoop B G t fuel 0

/-- The loop is a search for the first counter whose candidate passes. -/
theorem hashToPrimeLoop_eq (t : α) (fuel : ℕ) (counter : UInt64) :
    hashToPrimeLoop B G t fuel counter =
      firstHit .outOfFuel (· + 1) (fun c => isProbPrime G (candidatePrime B t c))
        (fun c => ((candidatePrime B t c).limbs.toNat : ℤ)) fuel counter := by
  induction fuel generalizing counter with
  | zero => rfl
  | succ fuel ih =>
    rw [hashToPrimeLoop, firstHit]
    simp only [ih]

end

/-! ## Candidates -/

theorem ofBytesLe_lt (bytes : List UInt8) : ofBytesLe bytes < 256 ^ bytes.length := by
  have digits : ∀ d ∈ bytes.map UInt8.toNat, d < 256 := by
    intro d member
    obtain ⟨byte, -, rfl⟩ := List.mem_map.mp member
    exact byte.toNat_lt
  have bound := Nat.ofDigits_lt_base_pow_length (by omega) digits
  rwa [List.length_map] at bound

/-- Bytes of one length are determined by their number. -/
theorem ofBytesLe_injective {l r : List UInt8} (lengths : l.length = r.length)
    (same : ofBytesLe l = ofBytesLe r) : l = r := by
  induction l generalizing r with
  | nil => exact (List.eq_nil_of_length_eq_zero lengths.symm).symm
  | cons x l ih =>
    cases r with
    | nil => cases lengths
    | cons y r =>
      simp only [ofBytesLe, List.map_cons, Nat.ofDigits_cons] at same
      have hx := x.toNat_lt
      have hy := y.toNat_lt
      have first : x.toNat = y.toNat := by omega
      have rest : ofBytesLe l = ofBytesLe r := by
        change Nat.ofDigits 256 (l.map UInt8.toNat) = Nat.ofDigits 256 (r.map UInt8.toNat)
        omega
      rw [UInt8.toNat_inj.mp first, ih (Nat.succ.inj lengths) rest]

section

variable {B : Blake2} {G : Gmp} {α : Type} [Hash α] {t : α} {counter : UInt64}

theorem normal_candidatePrime : Uint.Normal (candidatePrime B t counter) := rfl

/-- The number a candidate is. -/
theorem toNat_candidatePrime : (candidatePrime B t counter).toNat =
    ofBytesLe (setLowest (hash B (t, counter))).toList := by
  refine Uint.toNat_ofNat (w := 4) ?_
  have bound := ofBytesLe_lt (setLowest (hash B (t, counter))).toList
  rw [Vector.length_toList] at bound
  exact bound

/-- Setting the lowest bit makes the number odd. -/
theorem ofBytesLe_setLowest (digest : Vector UInt8 32) :
    ofBytesLe (setLowest digest).toList % 2 = 1 := by
  obtain ⟨x, rest, split⟩ : ∃ x rest, digest.toList = x :: rest := by
    apply List.exists_cons_of_length_pos
    rw [Vector.length_toList]
    omega
  have bytes : (setLowest digest).toList = (digest[0] ||| 1) :: rest := by
    rw [setLowest, Vector.toList_set, split, List.set_cons_zero]
  have bit : (digest[0] ||| 1).toNat % 2 = 1 := by
    rw [UInt8.toNat_or, Nat.or_mod_two_eq_one]
    exact Or.inr rfl
  rw [bytes]
  simp only [ofBytesLe, List.map_cons, Nat.ofDigits_cons]
  omega

theorem candidatePrime_odd : (candidatePrime B t counter).toNat % 2 = 1 := by
  rw [toNat_candidatePrime]
  exact ofBytesLe_setLowest _

/-- A candidate is determined by the digest but for the lowest bit. -/
theorem setLowest_eq_of_toNat {β : Type} [Hash β] {u : β} {counter' : UInt64}
    (same : (candidatePrime B t counter).toNat = (candidatePrime B u counter').toNat) :
    setLowest (hash B (t, counter)) = setLowest (hash B (u, counter')) := by
  rw [toNat_candidatePrime, toNat_candidatePrime] at same
  apply Vector.toList_inj.mp
  refine ofBytesLe_injective ?_ same
  rw [Vector.length_toList, Vector.length_toList]

/-- Value and counter can be told from the message. -/
theorem message_injective {β : Type} [Hash β] {u : β} {counter' : UInt64}
    (same : Hash.feed (t, counter) = Hash.feed (u, counter')) :
    Hash.feed t = Hash.feed u ∧ counter = counter' := by
  obtain ⟨value, suffix⟩ := List.append_inj' same (by
    change (toBytesLe 8 counter.toNat).length = (toBytesLe 8 counter'.toNat).length
    rw [length_toBytesLe, length_toBytesLe])
  refine ⟨value, ?_⟩
  have numbers : counter.toNat % 256 ^ 8 = counter'.toNat % 256 ^ 8 := by
    rw [← ofBytesLe_toBytesLe, ← ofBytesLe_toBytesLe]
    exact congrArg ofBytesLe suffix
  have range (c : UInt64) : c.toNat < 256 ^ 8 := c.toNat_lt
  rw [Nat.mod_eq_of_lt (range counter), Nat.mod_eq_of_lt (range counter')] at numbers
  exact UInt64.toNat_inj.mp numbers

end

/-! ## The search -/

section

variable (B : Blake2) (G : Gmp) {α : Type} [Hash α] (t : α)

theorem hashToPrime_eq (fuel : ℕ) : hashToPrime B G fuel t =
    firstHit .outOfFuel (· + 1) (fun c => isProbPrime G (candidatePrime B t c))
      (fun c => ((candidatePrime B t c).toNat : ℤ)) fuel 0 :=
  hashToPrimeLoop_eq B G t fuel 0

/-- One candidate is tested to one of three ends. -/
theorem test_ends (counter : UInt64) :
    isProbPrime G (candidatePrime B t counter) = .ok true ∨
      isProbPrime G (candidatePrime B t counter) = .ok false ∨
      isProbPrime G (candidatePrime B t counter) = .error .explicitPanic :=
  isProbPrime_ends G normal_candidatePrime

theorem returns_hashToPrime_iff (p : ℤ) :
    Returns (fun fuel => hashToPrime B G fuel t) p ↔
      ∃ counter, (∀ earlier < counter, isProbPrime G (candidatePrime B t earlier) = .ok false) ∧
        isProbPrime G (candidatePrime B t counter) = .ok true ∧
        p = (candidatePrime B t counter).toNat := by
  simp only [hashToPrime_eq]
  rw [returns_firstHit_iff]
  refine first_counter_iff (P := fun c => isProbPrime G (candidatePrime B t c) = .ok true ∧
    p = (candidatePrime B t c).toNat) ?_
  intro c passes fails
  rw [passes.1] at fails
  cases fails

theorem faults_hashToPrime_iff :
    Faults (fun fuel => hashToPrime B G fuel t) .explicitPanic ↔
      ∃ counter, (∀ earlier < counter, isProbPrime G (candidatePrime B t earlier) = .ok false) ∧
        isProbPrime G (candidatePrime B t counter) = .error .explicitPanic := by
  simp only [hashToPrime_eq]
  rw [faults_firstHit_iff (by decide)]
  refine first_counter_iff (P := fun c => isProbPrime G (candidatePrime B t c) =
    .error .explicitPanic) ?_
  intro c panics fails
  rw [panics] at fails
  cases fails

theorem hashToPrime_never_iff :
    (∀ fuel, hashToPrime B G fuel t = .error .outOfFuel) ↔
      ∀ counter, isProbPrime G (candidatePrime B t counter) = .ok false := by
  simp only [hashToPrime_eq]
  rw [firstHit_never_iff]
  · exact all_counters_iff (P := fun c => isProbPrime G (candidatePrime B t c) = .ok false)
  · intro c stuck
    rcases test_ends B G t c with passes | fails | panics
    · rw [passes] at stuck
      cases stuck
    · rw [fails] at stuck
      cases stuck
    · rw [panics] at stuck
      cases stuck

/-- The search ends in one of the three ways. -/
theorem hashToPrime_cases :
    (∃ p, Returns (fun fuel => hashToPrime B G fuel t) p) ∨
      Faults (fun fuel => hashToPrime B G fuel t) .explicitPanic ∨
      ∀ fuel, hashToPrime B G fuel t = .error .outOfFuel := by
  simp only [hashToPrime_eq]
  rcases exists_first_not_failing (· + 1) (fun c => isProbPrime G (candidatePrime B t c)) 0 with
    all | ⟨k, fails, passes | ⟨q, panics⟩⟩
  · exact Or.inr (Or.inr (firstHit_of_all_fail all))
  · exact Or.inl ⟨_, returns_of_passes fails passes⟩
  · rcases test_ends B G t ((· + 1)^[k] 0) with other | other | other
    · rw [panics] at other
      cases other
    · rw [panics] at other
      cases other
    · exact Or.inr (Or.inl (faults_of_error fails other))

end

/-- `hash_to_prime` returns the candidate of the least counter that passes the test, ends in the
test's panic when that comes first, and runs on exactly when every counter's candidate is
rejected.  The counter wraps, as in a release build. -/
theorem hash_to_prime_exact {α : Type} [Hash α] (B : Blake2) (G : Gmp) (t : α) :
    let test := fun counter => isProbPrime G (candidatePrime B t counter)
    (∀ p : ℤ, Returns (fun fuel => hashToPrime B G fuel t) p ↔
      ∃ counter, (∀ earlier < counter, test earlier = .ok false) ∧ test counter = .ok true ∧
        p = (candidatePrime B t counter).toNat) ∧
    (Faults (fun fuel => hashToPrime B G fuel t) .explicitPanic ↔
      ∃ counter, (∀ earlier < counter, test earlier = .ok false) ∧
        test counter = .error .explicitPanic) ∧
    ((∀ fuel, hashToPrime B G fuel t = .error .outOfFuel) ↔
      ∀ counter, test counter = .ok false) ∧
    ((∃ p, Returns (fun fuel => hashToPrime B G fuel t) p) ∨
      Faults (fun fuel => hashToPrime B G fuel t) .explicitPanic ∨
      ∀ fuel, hashToPrime B G fuel t = .error .outOfFuel) :=
  ⟨returns_hashToPrime_iff B G t, faults_hashToPrime_iff B G t, hashToPrime_never_iff B G t,
    hashToPrime_cases B G t⟩

/-- What is returned is odd, has 256 bits, is a small prime or satisfies the Baillie-PSW
conditions, and no earlier candidate was a prime. -/
theorem hash_to_prime_sound {α : Type} [Hash α] (B : Blake2) (G : Gmp) (t : α) (p : ℤ)
    (returns : Returns (fun fuel => hashToPrime B G fuel t) p) :
    ∃ (n : ℕ) (counter : UInt64), p = n ∧ n = (candidatePrime B t counter).toNat ∧
      n % 2 = 1 ∧ 3 ≤ n ∧ n < 2 ^ 256 ∧
      ((∃ s ∈ SMALL_PRIMES, n = s.toNat) ∨
        (∀ s ∈ SMALL_PRIMES, ¬ s.toNat ∣ n) ∧ BailliePsw n) ∧
      ∀ earlier < counter, ¬ (candidatePrime B t earlier).toNat.Prime := by
  obtain ⟨counter, fails, passes, value⟩ := (returns_hashToPrime_iff B G t p).mp returns
  have accepted := (isProbPrime_eq_true_iff G normal_candidatePrime).mp passes
  have odd : (candidatePrime B t counter).toNat % 2 = 1 := candidatePrime_odd
  refine ⟨_, counter, value, rfl, odd, ?_, Uint.toNat_lt _, accepted, fun earlier less =>
    not_prime_of_rejected G normal_candidatePrime (fails earlier less)⟩
  have notOne : (candidatePrime B t counter).toNat ≠ 1 := by
    intro one
    rw [one] at accepted
    rcases accepted with ⟨s, member, same⟩ | ⟨-, holds⟩
    · have := two_le_of_mem_small member
      omega
    · exact holds.nonsquare ⟨1, rfl⟩
  omega

namespace Sample

/-- Every message has the digest three. -/
def constantDigest : Blake2 := ⟨fun _ => (Vector.replicate 32 0).set 0 3⟩

/-- Messages that start with one have the digest three, all others five. -/
def firstByteDigest : Blake2 :=
  ⟨fun message => (Vector.replicate 32 0).set 0 (if message.head? = some 1 then 3 else 5)⟩

/-- A small prime is accepted at the first counter. -/
theorem returns_of_small {B : Blake2} {α : Type} [Hash α] {t : α} {p : UInt64}
    (value : (candidatePrime B t 0).toNat = p.toNat) (small : p ∈ SMALL_PRIMES) :
    Returns (fun fuel => hashToPrime B Gmp.reference fuel t) p.toNat := by
  rw [returns_hashToPrime_iff]
  refine ⟨0, fun earlier less => absurd less (by simp), ?_, by rw [value]⟩
  rw [isProbPrime_eq_true_iff _ normal_candidatePrime, value]
  exact Or.inl ⟨p, small, rfl⟩

theorem returns_three {α : Type} [Hash α] (t : α) :
    Returns (fun fuel => hashToPrime constantDigest Gmp.reference fuel t) 3 := by
  have value : (candidatePrime constantDigest t 0).toNat = 3 := by
    rw [toNat_candidatePrime]
    change ofBytesLe (setLowest ((Vector.replicate 32 0).set 0 3)).toList = 3
    decide
  exact returns_of_small (p := 3) value (by decide)

theorem returns_three_or_five (t : Bool) :
    Returns (fun fuel => hashToPrime firstByteDigest Gmp.reference fuel t)
      (if t then 3 else 5) := by
  cases t with
  | false =>
    have value : (candidatePrime firstByteDigest false 0).toNat = 5 := by
      rw [toNat_candidatePrime]
      decide
    exact returns_of_small (p := 5) value (by decide)
  | true =>
    have value : (candidatePrime firstByteDigest true 0).toNat = 3 := by
      rw [toNat_candidatePrime]
      decide
    exact returns_of_small (p := 3) value (by decide)

end Sample

open Sample in
theorem hash_to_prime_sound_of_three :
    ∃ (n : ℕ) (counter : UInt64), (3 : ℤ) = n ∧
      n = (candidatePrime constantDigest true counter).toNat ∧ n % 2 = 1 ∧ 3 ≤ n ∧ n < 2 ^ 256 ∧
      ((∃ s ∈ SMALL_PRIMES, n = s.toNat) ∨
        (∀ s ∈ SMALL_PRIMES, ¬ s.toNat ∣ n) ∧ BailliePsw n) ∧
      ∀ earlier < counter, ¬ (candidatePrime constantDigest true earlier).toNat.Prime :=
  hash_to_prime_sound constantDigest Gmp.reference true 3 (returns_three true)

/-! ## The hash functions of the accumulator -/

/-- Two values with the same prime hash feed the same bytes, or there are two different messages
whose digests agree but for the lowest bit. -/
theorem collision_of_same_prime {α β : Type} [Hash α] [Hash β] (B : Blake2) (G : Gmp) (t : α)
    (u : β) (p : ℤ) (left : Returns (fun fuel => hashToPrime B G fuel t) p)
    (right : Returns (fun fuel => hashToPrime B G fuel u) p) (differ : Hash.feed t ≠ Hash.feed u) :
    ∃ counter counter' : UInt64,
      Hash.feed (t, counter) ≠ Hash.feed (u, counter') ∧
        setLowest (B.digest (Hash.feed (t, counter))) =
          setLowest (B.digest (Hash.feed (u, counter'))) := by
  obtain ⟨counter, -, -, value⟩ := (returns_hashToPrime_iff B G t p).mp left
  obtain ⟨counter', -, -, value'⟩ := (returns_hashToPrime_iff B G u p).mp right
  refine ⟨counter, counter', fun same => differ (message_injective same).1, ?_⟩
  exact setLowest_eq_of_toNat (Int.ofNat_inj.mp (value.symm.trans value'))

open Sample in
theorem collision_of_same_prime_bool :
    ∃ counter counter' : UInt64, Hash.feed (true, counter) ≠ Hash.feed (false, counter') ∧
      setLowest (constantDigest.digest (Hash.feed (true, counter))) =
        setLowest (constantDigest.digest (Hash.feed (false, counter'))) :=
  collision_of_same_prime constantDigest Gmp.reference true false 3 (returns_three true)
    (returns_three false) (by decide)

/-- A value known by the bytes it feeds. -/
structure Fed where
  bytes : List UInt8

instance : Hash Fed where
  feed := Fed.bytes

/-- Only the bytes matter. -/
theorem hashToPrime_fed {α : Type} [Hash α] (B : Blake2) (G : Gmp) (fuel : ℕ) (t : α) :
    hashToPrime B G fuel (⟨Hash.feed t⟩ : Fed) = hashToPrime B G fuel t := by
  rw [hashToPrime_eq, hashToPrime_eq]
  rfl

open Classical in
/-- The two functions of the bytes these functions compute.  Where `hash_to_prime` does not
return, a number it could have returned stands in. -/
noncomputable def hashingOf (B : Blake2) (G : Gmp) : Hashing where
  primeOf bytes :=
    if returns : ∃ p, Returns (fun fuel => hashToPrime B G fuel (⟨bytes⟩ : Fed)) p then
      Classical.choose returns
    else 3
  blake2bOf bytes := blake2b B (⟨bytes⟩ : Fed)
  primeOf_ne_zero bytes := by
    split
    · next returns =>
      obtain ⟨counter, -, -, value⟩ :=
        (returns_hashToPrime_iff B G _ _).mp (Classical.choose_spec returns)
      have odd : (candidatePrime B (⟨bytes⟩ : Fed) counter).toNat % 2 = 1 := candidatePrime_odd
      omega
    · decide

section

variable {α : Type} [Hash α] {B : Blake2} {G : Gmp}

theorem hashingOf_hashToPrime {t : α} {p : ℤ}
    (returns : Returns (fun fuel => hashToPrime B G fuel t) p) :
    (hashingOf B G).hashToPrime t = p := by
  simp only [← hashToPrime_fed B G _ t] at returns
  have ends : ∃ p, Returns (fun fuel => hashToPrime B G fuel (⟨Hash.feed t⟩ : Fed)) p :=
    ⟨p, returns⟩
  exact (dif_pos ends).trans ((Classical.choose_spec ends).unique returns)

/-- The functions tell the elements of `S` apart when `hash_to_prime` returns a prime for each
and no two of them have messages whose digests agree but for the lowest bit. -/
theorem separates_of_blake2 (B : Blake2) (G : Gmp) (S : Set α)
    (primes : ∀ t ∈ S, ∃ p : ℕ, p.Prime ∧ Returns (fun fuel => hashToPrime B G fuel t) p)
    (apart : ∀ t ∈ S, ∀ u ∈ S, t ≠ u → ∀ counter counter' : UInt64,
      setLowest (hash B (t, counter)) ≠ setLowest (hash B (u, counter'))) :
    (∀ (t : α) (p : ℤ), Returns (fun fuel => hashToPrime B G fuel t) p →
      (hashingOf B G).hashToPrime t = p) ∧
    (∀ t : α, (hashingOf B G).blake2b t = blake2b B t) ∧ (hashingOf B G).Separates S := by
  refine ⟨fun t p => hashingOf_hashToPrime, fun t => rfl, ?_, ?_, ?_⟩
  · intro t member
    obtain ⟨p, prime, returns⟩ := primes t member
    rw [hashingOf_hashToPrime returns]
    exact_mod_cast prime.pos
  · intro t member
    obtain ⟨p, prime, returns⟩ := primes t member
    rw [hashingOf_hashToPrime returns]
    exact Nat.prime_iff_prime_int.mp prime
  · intro t ht u hu same
    obtain ⟨p, -, left⟩ := primes t ht
    obtain ⟨q, -, right⟩ := primes u hu
    rw [hashingOf_hashToPrime left, hashingOf_hashToPrime right] at same
    rw [← same] at right
    by_contra differ
    obtain ⟨counter, -, -, value⟩ := (returns_hashToPrime_iff B G t p).mp left
    obtain ⟨counter', -, -, value'⟩ := (returns_hashToPrime_iff B G u p).mp right
    exact apart t ht u hu differ counter counter'
      (setLowest_eq_of_toNat (Int.ofNat_inj.mp (value.symm.trans value')))

end

open Sample in
/-- All messages of `true` have the digest three, those of `false` five. -/
theorem separates_of_blake2_bool :
    (hashingOf firstByteDigest Gmp.reference).Separates (Set.univ : Set Bool) := by
  refine (separates_of_blake2 firstByteDigest Gmp.reference Set.univ ?_ ?_).2.2
  · intro t _
    cases t with
    | false => exact ⟨5, Nat.prime_five, returns_three_or_five false⟩
    | true => exact ⟨3, Nat.prime_three, returns_three_or_five true⟩
  · intro t _ u _ differ counter counter'
    have three : ∀ c : UInt64, setLowest (hash firstByteDigest (true, c)) =
        setLowest ((Vector.replicate 32 0).set 0 3) := fun _ => rfl
    have five : ∀ c : UInt64, setLowest (hash firstByteDigest (false, c)) =
        setLowest ((Vector.replicate 32 0).set 0 5) := fun _ => rfl
    have apart : setLowest ((Vector.replicate 32 0).set 0 3) ≠
        setLowest ((Vector.replicate 32 0).set 0 5) := by decide
    cases t with
    | false =>
      cases u with
      | false => exact (differ rfl).elim
      | true =>
        rw [five, three]
        exact apart.symm
    | true =>
      cases u with
      | false =>
        rw [three, five]
        exact apart
      | true => exact (differ rfl).elim

end GroupAccumulator
