/-!
Dictionaries and sets kept in order. A dictionary is a list of keys and values in strictly
increasing key order, so each key stands once and the order of entries says nothing about their
history: two dictionaries that give every key the same value have the same entries
(`get?_eq_some_iff`). `insert` replaces the value of a key that is there (`get?_insert`). `distinct`
is the set of the members of a list, each once and in increasing order.
-/

namespace ServerPack.Dictionary

variable {κ ν : Type} [LT κ] [DecidableLT κ] [DecidableEq κ]

/-- The keys increase strictly. -/
def Sorted (entries : List (κ × ν)) : Prop := entries.Pairwise fun a b => a.1 < b.1

/-- The value of a key. -/
def get? (key : κ) : List (κ × ν) → Option ν
  | [] => none
  | (key', value) :: rest => if key = key' then some value else get? key rest

/-- The dictionary with a value for a key, the only one that the key then has. -/
def insert (key : κ) (value : ν) : List (κ × ν) → List (κ × ν)
  | [] => [(key, value)]
  | (key', value') :: rest =>
    if key < key' then (key, value) :: (key', value') :: rest
    else if key = key' then (key, value) :: rest
    else (key', value') :: insert key value rest

/-- After an insertion the key has the new value and every other key what it had. -/
theorem get?_insert (key key' : κ) (value : ν) (entries : List (κ × ν)) :
    get? key' (insert key value entries) = if key' = key then some value else get? key' entries := by
  induction entries with
  | nil => rfl
  | cons head rest ih =>
    obtain ⟨k, v⟩ := head
    rw [insert]
    split
    · rfl
    · split
      · next h => subst h; simp only [get?]; split <;> rfl
      · next h =>
        simp only [get?, ih]
        split
        · next h' => subst h'; rw [if_neg (Ne.symm h)]
        · rfl

theorem mem_insert {key : κ} {value : ν} {entries : List (κ × ν)} {entry : κ × ν}
    (h : entry ∈ insert key value entries) : entry = (key, value) ∨ entry ∈ entries := by
  induction entries with
  | nil => simpa [insert] using h
  | cons head rest ih =>
    rw [insert] at h
    split at h
    · simpa using h
    · split at h
      · exact (List.mem_cons.1 h).imp_right (List.mem_cons_of_mem _)
      · rcases List.mem_cons.1 h with h | h
        · exact .inr (by simp [h])
        · exact (ih h).imp_right (List.mem_cons_of_mem _)

omit [LT κ] [DecidableLT κ] in
/-- Of the keys that satisfy a condition the values stay, the other keys have none. -/
theorem get?_filter (condition : κ → Bool) (key : κ) (entries : List (κ × ν)) :
    get? key (entries.filter fun entry => condition entry.1) =
      if condition key then get? key entries else none := by
  induction entries with
  | nil => simp [get?]
  | cons head rest ih =>
    obtain ⟨k, v⟩ := head
    by_cases hk : key = k
    · subst hk
      by_cases hc : condition key <;> simp [get?, hc, ih]
    · by_cases hc : condition k <;> simp [get?, hc, hk, ih]

section Order

variable [LE κ] [Std.IsLinearOrder κ] [Std.LawfulOrderLT κ]

/-- Insertion keeps the order. -/
theorem sorted_insert (key : κ) (value : ν) {entries : List (κ × ν)} (h : Sorted entries) :
    Sorted (insert key value entries) := by
  induction entries with
  | nil => simp [insert, Sorted]
  | cons head rest ih =>
    obtain ⟨k, v⟩ := head
    have hhead : ∀ e ∈ rest, k < e.1 := fun _ he => List.rel_of_pairwise_cons h he
    have hrest : Sorted rest := List.Pairwise.of_cons h
    rw [insert]
    split
    · next hlt =>
      refine List.Pairwise.cons (fun e he => ?_) h
      rcases List.mem_cons.1 he with rfl | he
      · exact hlt
      · exact Std.lt_trans hlt (hhead e he)
    · split
      · next heq => subst heq; exact List.Pairwise.cons hhead hrest
      · next hnlt hne =>
        refine List.Pairwise.cons (fun e he => ?_) (ih hrest)
        rcases mem_insert he with rfl | he
        · exact (Std.lt_trichotomy key k).elim (absurd · hnlt) fun h => h.elim (absurd · hne) id
        · exact hhead e he

omit [DecidableLT κ] [Std.IsLinearOrder κ] in
/-- In a sorted list the value of a key is that of its entry. -/
theorem get?_eq_some_iff {entries : List (κ × ν)} (h : Sorted entries) {key : κ} {value : ν} :
    get? key entries = some value ↔ (key, value) ∈ entries := by
  induction entries with
  | nil => simp [get?]
  | cons head rest ih =>
    obtain ⟨k, v⟩ := head
    have hhead : ∀ e ∈ rest, k < e.1 := fun _ he => List.rel_of_pairwise_cons h he
    rw [get?]
    split
    · next heq =>
      subst heq
      have : (key, value) ∉ rest := fun he => Std.lt_irrefl (hhead _ he)
      simp [this, eq_comm]
    · next hne => simp [ih (List.Pairwise.of_cons h), hne]

end Order

/-- The set with one more member. -/
def insertMember (a : κ) : List κ → List κ
  | [] => [a]
  | b :: rest => if a < b then a :: b :: rest else if a = b then b :: rest else b :: insertMember a rest

/-- The members of a list, each once and in increasing order. -/
def distinct (l : List κ) : List κ := l.foldr insertMember []

theorem mem_insertMember {a b : κ} {l : List κ} : b ∈ insertMember a l ↔ b = a ∨ b ∈ l := by
  induction l with
  | nil => simp [insertMember]
  | cons c rest ih =>
    rw [insertMember]
    split
    · simp
    · split
      · next h => subst h; simp
      · simp [ih, or_left_comm]

@[simp] theorem mem_distinct {a : κ} {l : List κ} : a ∈ distinct l ↔ a ∈ l := by
  induction l with
  | nil => simp [distinct]
  | cons b rest ih => rw [distinct, List.foldr_cons, mem_insertMember, ← distinct, ih, List.mem_cons]

end ServerPack.Dictionary
