import DjangoNova.Text.PrefixCode
import DjangoNova.Cache.QuerySetCache

/-!
# Digests of result keys

A result key consists of the digest of the database alias and the digest
of the hashed tuple. `KeyFaithful` states what the cache relies on;
`plainDigest` is a digest with this property that can be computed.
-/

namespace DjangoNova

variable {Sql : Type}

/-- The law of the digests that freshness needs: query digests identify
the hashed tuple, and a database digest has no separator in it. -/
structure Deployment.KeyFaithful (d : Deployment Sql) : Prop where
  query : Function.Injective d.queryDigest
  database : ∀ db, ':' ∉ d.databaseDigest db

theorem makeKey_parts {d : Deployment Sql} (hd : d.KeyFaithful) {db db' : Str}
    {parts parts' : KeyParts Sql}
    (h : QuerySetCache.makeKey d db parts = QuerySetCache.makeKey d db' parts') :
    parts = parts' := by
  have htail : d.databaseDigest db ++ ':' :: d.queryDigest parts =
      d.databaseDigest db' ++ ':' :: d.queryDigest parts' := by
    simp only [QuerySetCache.makeKey, databaseTag, List.append_assoc, List.cons_append,
      List.nil_append] at h
    exact List.append_cancel_left h
  exact hd.query (Str.append_separator_inj (hd.database db) (hd.database db') htail).2

/-- With injective database digests the key tells the databases apart as well. -/
theorem makeKey_db {d : Deployment Sql} (hd : d.KeyFaithful)
    (hdb : Function.Injective d.databaseDigest) {db db' : Str} {parts parts' : KeyParts Sql}
    (h : QuerySetCache.makeKey d db parts = QuerySetCache.makeKey d db' parts') : db = db' := by
  simp only [QuerySetCache.makeKey, databaseTag, List.append_assoc, List.cons_append,
    List.nil_append] at h
  exact hdb (Str.append_separator_inj (hd.database db) (hd.database db')
    (List.append_cancel_left h)).1

open PrefixCode in
/-- A readable digest of the hashed tuple. -/
def plainDigest (sqlCode : Sql → Str) (parts : KeyParts Sql) : Str :=
  pair text (pair sqlCode (pair (list text) (list (pair (pair text text) text))))
    (parts.fullName, parts.sql, parts.prefetches,
      parts.generations.map fun st ↦ ((st.1.model, st.1.database), st.2))

open PrefixCode in
theorem plainDigest_injective {sqlCode : Sql → Str} (h : PrefixFree sqlCode) :
    Function.Injective (plainDigest sqlCode) := by
  have hcode := prefixFree_pair prefixFree_text (prefixFree_pair h (prefixFree_pair
    (prefixFree_list prefixFree_text)
    (prefixFree_list (prefixFree_pair (prefixFree_pair prefixFree_text prefixFree_text)
      prefixFree_text))))
  refine hcode.injective.comp ?_
  rintro ⟨f, s, p, g⟩ ⟨f', s', p', g'⟩ heq
  simp only [Prod.mk.injEq] at heq
  obtain ⟨rfl, rfl, rfl, hg⟩ := heq
  have hinj : Function.Injective fun st : Scope × Str ↦ ((st.1.model, st.1.database), st.2) := by
    rintro ⟨⟨m, d⟩, s⟩ ⟨⟨m', d'⟩, s'⟩ h
    simpa using h
  obtain rfl := hinj.list_map hg
  rfl

/-- Escape the separator of a key. -/
def escapeSeparator (c : Char) : Str :=
  if c = ':' then ['+', 'c'] else if c = '+' then ['+', '+'] else [c]

theorem escapeSeparator_prefixFree : PrefixCode.PrefixFree escapeSeparator := by
  intro a b r s h
  grind [escapeSeparator]

/-- A readable digest of a database alias. -/
def escapedDigest : Str → Str := PrefixCode.list escapeSeparator

theorem escapedDigest_injective : Function.Injective escapedDigest :=
  (PrefixCode.prefixFree_list escapeSeparator_prefixFree).injective

theorem separator_not_mem_escapedDigest (db : Str) : ':' ∉ escapedDigest db := by
  have hescape : ∀ c, ':' ∉ escapeSeparator c := by
    intro c
    grind [escapeSeparator]
  induction db with
  | nil => decide
  | cons c db ih =>
      have hrest : ':' ∉ escapeSeparator c ++ escapedDigest db := by
        simp [hescape c, ih]
      simpa [escapedDigest, PrefixCode.list] using hrest

/-- A deployment with readable digests and no case folding, whose queries
are given by their text. -/
def plainDeployment (generation : Bool) : Deployment Str where
  generation := generation
  batch := false
  readMany := false
  returnsDetached := .ok true
  storesDetached := .ok true
  lower := id
  databaseDigest := fun db ↦ db.filter (· != ':')
  queryDigest := plainDigest PrefixCode.text

theorem plainDeployment_faithful (generation : Bool) :
    (plainDeployment generation).KeyFaithful where
  query := plainDigest_injective PrefixCode.prefixFree_text
  database := by simp [plainDeployment]

end DjangoNova
