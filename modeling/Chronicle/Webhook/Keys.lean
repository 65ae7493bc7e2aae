import Chronicle.Webhook.Subscription

/-! # The names of the keys of a subscription

All keys of a subscription carry the tag of its slot. The slot is a hash of the
id, and the id of a shard is hashed without its shard suffix, so a shard is in
the slot of its subscription.
-/

namespace Chronicle.Webhook

def fnv32a (s : Bytes) : ℕ :=
  s.foldl (fun h b => Nat.xor h b.toNat * 16777619 % 2 ^ 32) 2166136261

/-- The subscription id without the suffix of a shard. -/
def baseSubID (id : Bytes) : Bytes :=
  let digits := id.reverse.takeWhile Decimal.isDigit
  let rest := id.reverse.drop digits.length
  if digits ≠ [] ∧ rest.take 3 = [58, 103, 58] then (rest.drop 3).reverse else id

def slotOf (id : Bytes) : ℕ := fnv32a (baseSubID id) % 256

def slotTagAt (h : ℕ) : Bytes := Bytes.ascii "\x7b__ds:" ++ Decimal.formatNat h ++ [125]

def slotHome (h : ℕ) : Bytes := Bytes.ascii "ds:" ++ slotTagAt h

def subKey (id : Bytes) : Bytes := slotHome (slotOf id) ++ Bytes.ascii ":sub:" ++ id

def shardSuffix : Bytes := Bytes.ascii ":g:"

def subShardKey (id : Bytes) (g : ℕ) : Bytes :=
  if g = 0 then subKey id else subKey id ++ shardSuffix ++ Decimal.formatNat g

def subShardRegistryKey (id : Bytes) : Bytes := subKey id ++ Bytes.ascii ":shards"

def subIncarnationKey (id : Bytes) : Bytes := subKey id ++ Bytes.ascii ":incarnation"

def shardMember (id : Bytes) (g : ℕ) : Bytes :=
  if g = 0 then id else id ++ shardSuffix ++ Decimal.formatNat g

def linksKey (id : Bytes) : Bytes := subKey id ++ Bytes.ascii ":links"

def subsKey (h : ℕ) : Bytes := slotHome h ++ Bytes.ascii ":subs"

def streamSubsKey (h : ℕ) (path : Path) : Bytes := slotHome h ++ Bytes.ascii ":stream:" ++ path

def leaseZKey (h : ℕ) : Bytes := slotHome h ++ Bytes.ascii ":sched:lease"

def retryZKey (h : ℕ) : Bytes := slotHome h ++ Bytes.ascii ":sched:retry"

def dueZKey (h : ℕ) : Bytes := slotHome h ++ Bytes.ascii ":due"

def slotKey (h : ℕ) : Bytes :=
  slotHome h ++ Bytes.ascii ":ownership:slot:" ++ Decimal.formatNat h

section Apart

/-- What comes after the tag of a slot. -/
theorem slotHome_append_inj {h h' : ℕ} {a b : Bytes} (heq : slotHome h ++ a = slotHome h' ++ b) :
    a = b := by
  have hdrop : ∀ (n : ℕ) (c : Bytes), (slotHome n ++ c).dropWhile (· ≠ 125) = 125 :: c := by
    intro n c
    have hdigits : ∀ x ∈ Decimal.formatNat n, decide (x ≠ 125) = true := by
      intro x hx
      rw [decide_eq_true_eq]
      rintro rfl
      exact Decimal.not_mem_formatNat (by decide) n hx
    have htag : slotHome n ++ c =
        Bytes.ascii "ds:\x7b__ds:" ++ (Decimal.formatNat n ++ 125 :: c) := by
      unfold slotHome slotTagAt
      rw [show Bytes.ascii "ds:\x7b__ds:" = Bytes.ascii "ds:" ++ Bytes.ascii "\x7b__ds:" by decide]
      simp
    have hhead : (Bytes.ascii "ds:\x7b__ds:").all (· ≠ 125) = true := by decide
    rw [htag, List.dropWhile_append_of_pos (List.all_eq_true.mp hhead),
      List.dropWhile_append_of_pos hdigits]
    rfl
  have heq' := congrArg (List.dropWhile (· ≠ 125)) heq
  rw [hdrop, hdrop] at heq'
  exact List.tail_eq_of_cons_eq heq'

def slotKeys (h : ℕ) : Set Bytes :=
  {subsKey h, leaseZKey h, retryZKey h, dueZKey h, slotKey h} ∪ Set.range (streamSubsKey h)

/-- No key of a subscription is a key of its slot. -/
theorem subKey_append_notMem (id suffix : Bytes) (h : ℕ) : subKey id ++ suffix ∉ slotKeys h := by
  have hne : ∀ b : Bytes, b.take 5 ≠ Bytes.ascii ":sub:" →
      subKey id ++ suffix ≠ slotHome h ++ b := by
    intro b hb heq
    unfold subKey at heq
    rw [List.append_assoc, List.append_assoc] at heq
    apply hb
    rw [← slotHome_append_inj heq]
    rfl
  rintro ((heq | heq | heq | heq | heq) | ⟨path, heq⟩)
  · exact hne _ (by decide) heq
  · exact hne _ (by decide) heq
  · exact hne _ (by decide) heq
  · exact hne _ (by decide) heq
  · refine hne _ ?_ (heq.trans (List.append_assoc ..))
    rw [List.take_append_of_le_length (by decide)]
    decide
  · refine hne _ ?_ (heq.symm.trans (List.append_assoc ..))
    rw [List.take_append_of_le_length (by decide)]
    decide

end Apart

end Chronicle.Webhook
