import Mathlib.Data.List.Pairwise
import Ecma.Symbol

/-!
# Symbols keep their identity

Symbols are asked for in three ways: as a fresh one, by a key of the registry, or by a
well-known name. What a table knows is an account of what was asked for and answered before
(`SymbolTable.Accounts`): the tables of names and keys list exactly the answers that were given
for them, the table of identities is the inverse of the one of keys, and two answers are the
same symbol exactly when they were given for the same key or the same well-known name.

A request is answered from a table or with an identity that was never handed out, and either
way the account goes on (`Accounts.answer`). By induction it holds after any run of requests
(`Accounts.answerAll`), in whatever order the tables are filled.
-/

namespace Ecma

/-- A request for a symbol. -/
inductive SymbolRequest where
  | fresh (description : Option String)
  | forKey (key : String)
  | wellKnown (w : WellKnown)
  deriving DecidableEq, Repr

namespace SymbolRequest

/-- The symbol can be asked for again. -/
def isShared : SymbolRequest → Bool
  | fresh _ => false
  | forKey _ | wellKnown _ => true

/-- The key under which the symbol is registered. -/
def key? : SymbolRequest → Option String
  | forKey key => some key
  | fresh _ | wellKnown _ => none

end SymbolRequest

/-- Two requests with their answers: the symbols are the same exactly when the requests are
and ask for a symbol that is shared. -/
structure Distinguished (a b : SymbolRequest × Symbol) : Prop where
  id_eq_iff : a.2.id = b.2.id ↔ a.1 = b.1 ∧ a.1.isShared
  eq_of_id_eq : a.2.id = b.2.id → a.2 = b.2

instance : Std.Symm Distinguished where
  symm a b h :=
    { id_eq_iff := by
        rw [eq_comm, h.id_eq_iff, eq_comm]
        exact and_congr_right fun heq => by rw [heq]
      eq_of_id_eq := fun hid => (h.eq_of_id_eq hid.symm).symm }

namespace SymbolTable

/-- Answer a request. -/
def answer (t : SymbolTable) : SymbolRequest → Symbol × SymbolTable
  | .fresh description => t.fresh description
  | .forKey key => t.forKey key
  | .wellKnown w => t.ofWellKnown w

/-- Answer requests one after the other; yields each request with its answer. -/
def answerAll (t : SymbolTable) :
    List SymbolRequest → List (SymbolRequest × Symbol) × SymbolTable
  | [] => ([], t)
  | r :: rs =>
    let (s, t) := t.answer r
    let (log, t) := t.answerAll rs
    ((r, s) :: log, t)

theorem map_fst_answerAll (t : SymbolTable) (rs : List SymbolRequest) :
    (t.answerAll rs).1.map Prod.fst = rs := by
  induction rs generalizing t with
  | nil => rfl
  | cons r rs ih => exact congrArg (r :: ·) (ih (t.answer r).2)

/-- The table accounts for the requests that were answered so far. -/
structure Accounts (t : SymbolTable) (log : List (SymbolRequest × Symbol)) : Prop where
  lt_next : ∀ a ∈ log, a.2.id < t.next
  wellKnown : ∀ w s, t.wellKnown.get? w = some s ↔ (.wellKnown w, s) ∈ log
  byKey : ∀ key s, t.byKey.get? key = some s ↔ (.forKey key, s) ∈ log
  /-- the table of identities is the inverse of the table of keys -/
  byId : ∀ id key, t.byId.get? id = some key ↔ ∃ s, (.forKey key, s) ∈ log ∧ s.id = id
  distinguished : log.Pairwise Distinguished

theorem accounts_empty : empty.Accounts [] := by
  constructor <;> simp [empty]

namespace Accounts

variable {t : SymbolTable} {log : List (SymbolRequest × Symbol)}

/-! ## One request -/

/-- A shared symbol that was given before is given again. -/
theorem again (h : t.Accounts log) {r : SymbolRequest} {s : Symbol} (hr : r.isShared)
    (hmem : (r, s) ∈ log) : t.Accounts (log ++ [(r, s)]) := by
  have hlog : ∀ a, a ∈ log ++ [(r, s)] ↔ a ∈ log := by
    intro a
    rw [List.mem_append, List.mem_singleton, or_iff_left_iff_imp]
    rintro rfl
    exact hmem
  have hlast : ∀ a ∈ log, Distinguished a (r, s) := by
    intro a ha
    by_cases heq : a = (r, s)
    · subst heq
      exact ⟨by simp [hr], fun _ => rfl⟩
    · exact h.distinguished.forall ha hmem heq
  refine ⟨?_, ?_, ?_, ?_, ?_⟩
  · simpa only [hlog] using h.lt_next
  · simpa only [hlog] using h.wellKnown
  · simpa only [hlog] using h.byKey
  · simpa only [hlog] using h.byId
  · rw [List.pairwise_append]
    simpa [h.distinguished] using hlast

/-- An identity that was not handed out distinguishes its symbol from all others. -/
theorem distinguished_new (h : t.Accounts log) {r : SymbolRequest}
    (hr : r.isShared → ∀ s, (r, s) ∉ log) (description : Option String) :
    (log ++ [(r, (t.fresh description).1)]).Pairwise Distinguished := by
  rw [List.pairwise_append]
  refine ⟨h.distinguished, List.pairwise_singleton _ _, ?_⟩
  rintro ⟨r', s'⟩ hmem _ hlast
  obtain rfl := List.mem_singleton.mp hlast
  have hne : s'.id ≠ t.next := Nat.ne_of_lt (h.lt_next _ hmem)
  refine ⟨iff_of_false hne ?_, fun hid => absurd hid hne⟩
  rintro ⟨heq, hshared⟩
  obtain rfl : r' = r := heq
  exact hr hshared s' hmem

theorem lt_next_new (h : t.Accounts log) (r : SymbolRequest) (description : Option String) :
    ∀ a ∈ log ++ [(r, (t.fresh description).1)], a.2.id < t.next + 1 := by
  intro a ha
  rcases List.mem_append.mp ha with hold | hnew
  · exact Nat.lt_succ_of_lt (h.lt_next a hold)
  · obtain rfl := List.mem_singleton.mp hnew
    exact Nat.lt_succ_self _

theorem fresh (h : t.Accounts log) (description : Option String) :
    (t.fresh description).2.Accounts (log ++ [(.fresh description, (t.fresh description).1)]) where
  lt_next := h.lt_next_new _ _
  wellKnown := by simpa [SymbolTable.fresh] using h.wellKnown
  byKey := by simpa [SymbolTable.fresh] using h.byKey
  byId := by simpa [SymbolTable.fresh] using h.byId
  distinguished := h.distinguished_new (fun hshared => by cases hshared) description

theorem ofWellKnown (h : t.Accounts log) (w : WellKnown) :
    (t.ofWellKnown w).2.Accounts (log ++ [(.wellKnown w, (t.ofWellKnown w).1)]) := by
  rw [SymbolTable.ofWellKnown]
  rcases hold : t.wellKnown.get? w with _ | s
  · have hnew : ∀ s, (.wellKnown w, s) ∉ log := by
      intro s hmem
      rw [← h.wellKnown, hold] at hmem
      cases hmem
    dsimp only [SymbolTable.fresh]
    exact
      { lt_next := h.lt_next_new _ _
        wellKnown := fun w' s' => by
          rw [Dictionary.get?_insert_eq_some hold, h.wellKnown]
          simp
        byKey := by simpa using h.byKey
        byId := by simpa using h.byId
        distinguished := h.distinguished_new (fun _ => hnew) _ }
  · exact h.again rfl ((h.wellKnown w s).mp hold)

theorem forKey (h : t.Accounts log) (key : String) :
    (t.forKey key).2.Accounts (log ++ [(.forKey key, (t.forKey key).1)]) := by
  rw [SymbolTable.forKey]
  rcases hold : t.byKey.get? key with _ | s
  · have hnew : ∀ s, (.forKey key, s) ∉ log := by
      intro s hmem
      rw [← h.byKey, hold] at hmem
      cases hmem
    -- no key was registered for the identity that is handed out now
    have hfree : t.byId.get? t.next = none := by
      rw [Option.eq_none_iff_forall_ne_some]
      intro key' hkey'
      obtain ⟨s, hmem, hid⟩ := (h.byId _ _).mp hkey'
      exact Nat.ne_of_lt (h.lt_next _ hmem) hid
    dsimp only [SymbolTable.fresh]
    exact
      { lt_next := h.lt_next_new _ _
        wellKnown := by simpa using h.wellKnown
        byKey := fun key' s' => by
          rw [Dictionary.get?_insert_eq_some hold, h.byKey]
          simp
        byId := fun id key' => by
          rw [Dictionary.get?_insert_eq_some hfree, h.byId]
          constructor
          · rintro (⟨s, hmem, hid⟩ | ⟨rfl, rfl⟩)
            · exact ⟨s, List.mem_append_left _ hmem, hid⟩
            · exact ⟨_, List.mem_append_right _ (List.mem_singleton.mpr rfl), rfl⟩
          · rintro ⟨s, hmem, rfl⟩
            rcases List.mem_append.mp hmem with hmem | hlast
            · exact .inl ⟨s, hmem, rfl⟩
            · obtain ⟨hkey, rfl⟩ := Prod.mk.inj (List.mem_singleton.mp hlast)
              exact .inr ⟨rfl, SymbolRequest.forKey.inj hkey⟩
        distinguished := h.distinguished_new (fun _ => hnew) _ }
  · exact h.again rfl ((h.byKey key s).mp hold)

/-- **One request**, whichever it is, keeps the account. -/
theorem answer (h : t.Accounts log) (r : SymbolRequest) :
    (t.answer r).2.Accounts (log ++ [(r, (t.answer r).1)]) := by
  cases r with
  | fresh description => exact h.fresh description
  | forKey key => exact h.forKey key
  | wellKnown w => exact h.ofWellKnown w

/-! ## Runs of requests -/

theorem answerAll (h : t.Accounts log) (rs : List SymbolRequest) :
    (t.answerAll rs).2.Accounts (log ++ (t.answerAll rs).1) := by
  induction rs generalizing t log with
  | nil => simpa [SymbolTable.answerAll] using h
  | cons r rs ih => simpa [SymbolTable.answerAll] using ih (h.answer r)

/-- Answers at different places of the account are distinguished. -/
theorem distinguished_of_ne (h : t.Accounts log) {i j : Nat} (hne : i ≠ j)
    {a b : SymbolRequest × Symbol} (hi : log[i]? = some a) (hj : log[j]? = some b) :
    Distinguished a b := by
  obtain ⟨hilt, rfl⟩ := List.getElem?_eq_some_iff.mp hi
  obtain ⟨hjlt, rfl⟩ := List.getElem?_eq_some_iff.mp hj
  have hordered := List.pairwise_iff_getElem.mp h.distinguished
  rcases Nat.lt_or_gt_of_ne hne with hlt | hgt
  · exact hordered i j hilt hjlt hlt
  · exact Std.Symm.symm _ _ (hordered j i hjlt hilt hgt)

/-- The key of an answer is the one that it was given for. -/
theorem keyOf?_eq (h : t.Accounts log) {r : SymbolRequest} {s : Symbol} (hmem : (r, s) ∈ log) :
    t.keyOf? s = r.key? := by
  apply Option.ext
  intro key
  rw [keyOf?, h.byId]
  constructor
  · rintro ⟨s', hmem', hid⟩
    by_cases heq : ((.forKey key, s') : SymbolRequest × Symbol) = (r, s)
    · obtain ⟨rfl, -⟩ := Prod.mk.inj heq
      rfl
    · obtain ⟨hsame, -⟩ := (h.distinguished.forall hmem' hmem heq).id_eq_iff.mp hid
      obtain rfl : .forKey key = r := hsame
      rfl
  · intro hkey
    cases r with
    | forKey key' =>
      obtain rfl := Option.some.inj hkey
      exact ⟨s, hmem, rfl⟩
    | fresh description => cases hkey
    | wellKnown w => cases hkey

end Accounts

/-- **Symbols keep their identity.** Start without symbols and let any requests follow.

* Two answers are the same symbol, told by its identity, exactly when they are one answer or
  both were given for the same key or the same well-known name; descriptions do not matter.
* A symbol is registered for a key exactly when it was the answer for that key. So the key of an
  answer is the one that it was given for, and fresh and well-known symbols have none. -/
theorem symbols_keep_identity (rs : List SymbolRequest) :
    let log := (empty.answerAll rs).1
    let t := (empty.answerAll rs).2
    log.map Prod.fst = rs ∧
    (∀ (i j : Nat) (r r' : SymbolRequest) (s s' : Symbol),
      log[i]? = some (r, s) → log[j]? = some (r', s') →
        (s.id = s'.id ↔ i = j ∨ r = r' ∧ r.isShared) ∧ (s.id = s'.id → s = s')) ∧
    (∀ s key, t.keyOf? s = some key ↔ ∃ s', (.forKey key, s') ∈ log ∧ s'.id = s.id) ∧
    ∀ r s, (r, s) ∈ log → t.keyOf? s = r.key? := by
  intro log t
  have haccounts : t.Accounts log := by simpa using accounts_empty.answerAll rs
  refine ⟨map_fst_answerAll empty rs, ?_, fun s key => haccounts.byId s.id key,
    fun r s hmem => haccounts.keyOf?_eq hmem⟩
  intro i j r r' s s' hi hj
  by_cases hij : i = j
  · subst hij
    obtain ⟨rfl, rfl⟩ := Prod.mk.inj (Option.some.inj (hi.symm.trans hj))
    exact ⟨by simp, fun _ => rfl⟩
  · have hdistinguished := haccounts.distinguished_of_ne hij hi hj
    refine ⟨?_, hdistinguished.eq_of_id_eq⟩
    rw [or_iff_right hij]
    exact hdistinguished.id_eq_iff

/-! ## The well-known symbols of a realm -/

/-- What a table has for a well-known name stays. -/
theorem wellKnown_answer {t : SymbolTable} {w : WellKnown} {s : Symbol}
    (h : t.wellKnown.get? w = some s) (r : SymbolRequest) :
    (t.answer r).2.wellKnown.get? w = some s := by
  cases r with
  | fresh description => exact h
  | forKey key =>
    simp only [answer, forKey]
    split <;> exact h
  | wellKnown w' =>
    simp only [answer, ofWellKnown]
    split
    · exact h
    · next hnone => exact (Dictionary.get?_insert_eq_some hnone).mpr (.inl h)

/-- **The constants are right.** In a realm, whatever was asked for since it was made, asking
for a well-known symbol gives the one that programs name. -/
theorem ofWellKnown_realm (rs : List SymbolRequest) (w : WellKnown) :
    ((initial.answerAll rs).2.ofWellKnown w).1 = w.symbol := by
  have hkept : ∀ t : SymbolTable, t.wellKnown.get? w = some w.symbol →
      (t.answerAll rs).2.wellKnown.get? w = some w.symbol := by
    induction rs with
    | nil => exact fun t ht => ht
    | cons r rs ih => exact fun t ht => ih (t.answer r).2 (wellKnown_answer ht r)
  rw [ofWellKnown, hkept initial (wellKnown_initial w)]

end SymbolTable

end Ecma
