import Intake.Request.Table

/-!
# Filter parameters

The parameters of the filter endpoint. The two keys for a status set one field, and their bits tell
whether it is wanted or not.
-/

namespace Intake.Request

inductive FilterField where
  | sex
  | emailDomain
  | emailLess
  | emailGreater
  | status
  | fname
  | fnameAny
  | fnameNull
  | sname
  | snameStarts
  | snameNull
  | phoneCode
  | phoneNull
  | country
  | countryNull
  | city
  | cityAny
  | cityNull
  | birthLess
  | birthGreater
  | birthYear
  | interestsContains
  | interestsAny
  | likesContains
  | premiumNow
  | premiumNull
  | limit
deriving DecidableEq

namespace FilterField

def all : List FilterField :=
  [sex, emailDomain, emailLess, emailGreater, status, fname, fnameAny, fnameNull, sname,
    snameStarts, snameNull, phoneCode, phoneNull, country, countryNull, city, cityAny, cityNull,
    birthLess, birthGreater, birthYear, interestsContains, interestsAny, likesContains, premiumNow,
    premiumNull, limit]

/-- The fields whose text is a list with commas. -/
def lists : List FilterField := [fnameAny, cityAny, interestsContains, interestsAny, likesContains]

def name : FilterField → String
  | sex => "sex"
  | emailDomain => "email_domain"
  | emailLess => "email_lt"
  | emailGreater => "email_gt"
  | status => "status"
  | fname => "fname"
  | fnameAny => "fname_any"
  | fnameNull => "fname_null"
  | sname => "sname"
  | snameStarts => "sname_starts"
  | snameNull => "sname_null"
  | phoneCode => "phone_code"
  | phoneNull => "phone_null"
  | country => "country"
  | countryNull => "country_null"
  | city => "city"
  | cityAny => "city_any"
  | cityNull => "city_null"
  | birthLess => "birth_lt"
  | birthGreater => "birth_gt"
  | birthYear => "birth_year"
  | interestsContains => "interests_contains"
  | interestsAny => "interests_any"
  | likesContains => "likes_contains"
  | premiumNow => "premium_now"
  | premiumNull => "premium_null"
  | limit => "limit"

def kind : FilterField → ParameterKind
  | sex => .sex
  | status => .status
  | emailDomain | emailLess | emailGreater | fname | fnameAny | sname | snameStarts | country | city
  | cityAny | interestsContains | interestsAny | likesContains => .text
  | fnameNull | snameNull | phoneNull | countryNull | cityNull | premiumNow | premiumNull => .flag
  | phoneCode => .code
  | birthLess | birthGreater | birthYear => .signed
  | limit => .limit

end FilterField

inductive FilterKey where
  | sexEq
  | emailDomain
  | emailLess
  | emailGreater
  | statusEq
  | statusNeq
  | fnameEq
  | fnameAny
  | fnameNull
  | snameEq
  | snameStarts
  | snameNull
  | phoneCode
  | phoneNull
  | countryEq
  | countryNull
  | cityEq
  | cityAny
  | cityNull
  | birthLess
  | birthGreater
  | birthYear
  | interestsContains
  | interestsAny
  | likesContains
  | premiumNow
  | premiumNull
  | limit
deriving DecidableEq

namespace FilterKey

def all : List FilterKey :=
  [sexEq, emailDomain, emailLess, emailGreater, statusEq, statusNeq, fnameEq, fnameAny, fnameNull,
    snameEq, snameStarts, snameNull, phoneCode, phoneNull, countryEq, countryNull, cityEq, cityAny,
    cityNull, birthLess, birthGreater, birthYear, interestsContains, interestsAny, likesContains,
    premiumNow, premiumNull, limit]

def field : FilterKey → FilterField
  | sexEq => .sex
  | emailDomain => .emailDomain
  | emailLess => .emailLess
  | emailGreater => .emailGreater
  | statusEq | statusNeq => .status
  | fnameEq => .fname
  | fnameAny => .fnameAny
  | fnameNull => .fnameNull
  | snameEq => .sname
  | snameStarts => .snameStarts
  | snameNull => .snameNull
  | phoneCode => .phoneCode
  | phoneNull => .phoneNull
  | countryEq => .country
  | countryNull => .countryNull
  | cityEq => .city
  | cityAny => .cityAny
  | cityNull => .cityNull
  | birthLess => .birthLess
  | birthGreater => .birthGreater
  | birthYear => .birthYear
  | interestsContains => .interestsContains
  | interestsAny => .interestsAny
  | likesContains => .likesContains
  | premiumNow => .premiumNow
  | premiumNull => .premiumNull
  | limit => .limit

/-- A key is named like its field, with the comparison it asks for at the end. -/
def name : FilterKey → String
  | sexEq => "sex_eq"
  | statusEq => "status_eq"
  | statusNeq => "status_neq"
  | fnameEq => "fname_eq"
  | snameEq => "sname_eq"
  | countryEq => "country_eq"
  | cityEq => "city_eq"
  | key => key.field.name

theorem mem_all (key : FilterKey) : key ∈ all := by
  cases key <;> decide

end FilterKey

/-- The table of the filter endpoint. -/
abbrev filterTable : Table where
  Key := FilterKey
  Field := FilterField
  keys := FilterKey.all
  name := FilterKey.name
  field := FilterKey.field
  kind := FilterField.kind

end Intake.Request
