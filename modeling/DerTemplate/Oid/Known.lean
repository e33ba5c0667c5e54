import DerTemplate.Bytes

namespace DerTemplate.Oid

structure Known where
  symbol : String
  dotted : String
  sum : Nat
  der : Bytes
deriving DecidableEq, Repr

def hashTable : List Known := [
  ⟨"MD5", "1.2.840.113549.2.5", 649,
    [0x2A, 0x86, 0x48, 0x86, 0xF7, 0x0D, 0x02, 0x05]⟩,
  ⟨"SHA1", "1.3.14.3.2.26", 88,
    [0x2B, 0x0E, 0x03, 0x02, 0x1A]⟩,
  ⟨"SHA224", "2.16.840.1.101.3.4.2.4", 417,
    [0x60, 0x86, 0x48, 0x01, 0x65, 0x03, 0x04, 0x02, 0x04]⟩,
  ⟨"SHA256", "2.16.840.1.101.3.4.2.1", 414,
    [0x60, 0x86, 0x48, 0x01, 0x65, 0x03, 0x04, 0x02, 0x01]⟩,
  ⟨"SHA384", "2.16.840.1.101.3.4.2.2", 415,
    [0x60, 0x86, 0x48, 0x01, 0x65, 0x03, 0x04, 0x02, 0x02]⟩,
  ⟨"SHA512", "2.16.840.1.101.3.4.2.3", 416,
    [0x60, 0x86, 0x48, 0x01, 0x65, 0x03, 0x04, 0x02, 0x03]⟩,
  ⟨"SHA3_256", "2.16.840.1.101.3.4.2.8", 421,
    [0x60, 0x86, 0x48, 0x01, 0x65, 0x03, 0x04, 0x02, 0x08]⟩,
  ⟨"SHA3_384", "2.16.840.1.101.3.4.2.9", 422,
    [0x60, 0x86, 0x48, 0x01, 0x65, 0x03, 0x04, 0x02, 0x09]⟩,
  ⟨"SHA3_512", "2.16.840.1.101.3.4.2.10", 423,
    [0x60, 0x86, 0x48, 0x01, 0x65, 0x03, 0x04, 0x02, 0x0A]⟩]

def sigTable : List Known := [
  ⟨"SHA1_WITH_RSA", "1.2.840.113549.1.1.5", 649,
    [0x2A, 0x86, 0x48, 0x86, 0xF7, 0x0D, 0x01, 0x01, 0x05]⟩,
  ⟨"SHA256_WITH_RSA", "1.2.840.113549.1.1.11", 655,
    [0x2A, 0x86, 0x48, 0x86, 0xF7, 0x0D, 0x01, 0x01, 0x0B]⟩,
  ⟨"SHA384_WITH_RSA", "1.2.840.113549.1.1.12", 656,
    [0x2A, 0x86, 0x48, 0x86, 0xF7, 0x0D, 0x01, 0x01, 0x0C]⟩,
  ⟨"SHA512_WITH_RSA", "1.2.840.113549.1.1.13", 657,
    [0x2A, 0x86, 0x48, 0x86, 0xF7, 0x0D, 0x01, 0x01, 0x0D]⟩,
  ⟨"RSASSA_PSS", "1.2.840.113549.1.1.10", 654,
    [0x2A, 0x86, 0x48, 0x86, 0xF7, 0x0D, 0x01, 0x01, 0x0A]⟩,
  ⟨"SHA1_WITH_ECDSA", "1.2.840.10045.4.1", 520,
    [0x2A, 0x86, 0x48, 0xCE, 0x3D, 0x04, 0x01]⟩,
  ⟨"SHA256_WITH_ECDSA", "1.2.840.10045.4.3.2", 524,
    [0x2A, 0x86, 0x48, 0xCE, 0x3D, 0x04, 0x03, 0x02]⟩,
  ⟨"SHA384_WITH_ECDSA", "1.2.840.10045.4.3.3", 525,
    [0x2A, 0x86, 0x48, 0xCE, 0x3D, 0x04, 0x03, 0x03]⟩,
  ⟨"SHA512_WITH_ECDSA", "1.2.840.10045.4.3.4", 526,
    [0x2A, 0x86, 0x48, 0xCE, 0x3D, 0x04, 0x03, 0x04]⟩,
  ⟨"ED25519", "1.3.101.112", 256,
    [0x2B, 0x65, 0x70]⟩,
  ⟨"ED448", "1.3.101.113", 257,
    [0x2B, 0x65, 0x71]⟩]

def keyTable : List Known := [
  ⟨"RSA", "1.2.840.113549.1.1.1", 645,
    [0x2A, 0x86, 0x48, 0x86, 0xF7, 0x0D, 0x01, 0x01, 0x01]⟩,
  ⟨"DSA", "1.2.840.10040.4.1", 515,
    [0x2A, 0x86, 0x48, 0xCE, 0x38, 0x04, 0x01]⟩,
  ⟨"EC_PUBLIC_KEY", "1.2.840.10045.2.1", 518,
    [0x2A, 0x86, 0x48, 0xCE, 0x3D, 0x02, 0x01]⟩,
  ⟨"X25519", "1.3.101.110", 254,
    [0x2B, 0x65, 0x6E]⟩,
  ⟨"X448", "1.3.101.111", 255,
    [0x2B, 0x65, 0x6F]⟩,
  ⟨"ED25519", "1.3.101.112", 256,
    [0x2B, 0x65, 0x70]⟩,
  ⟨"ED448", "1.3.101.113", 257,
    [0x2B, 0x65, 0x71]⟩]

def curveTable : List Known := [
  ⟨"SECP224R1", "1.3.132.0.33", 209,
    [0x2B, 0x81, 0x04, 0x00, 0x21]⟩,
  ⟨"SECP256R1", "1.2.840.10045.3.1.7", 526,
    [0x2A, 0x86, 0x48, 0xCE, 0x3D, 0x03, 0x01, 0x07]⟩,
  ⟨"SECP384R1", "1.3.132.0.34", 210,
    [0x2B, 0x81, 0x04, 0x00, 0x22]⟩,
  ⟨"SECP521R1", "1.3.132.0.35", 211,
    [0x2B, 0x81, 0x04, 0x00, 0x23]⟩,
  ⟨"SECP256K1", "1.3.132.0.10", 186,
    [0x2B, 0x81, 0x04, 0x00, 0x0A]⟩]

def certExtTable : List Known := [
  ⟨"BASIC_CONSTRAINTS", "2.5.29.19", 133,
    [0x55, 0x1D, 0x13]⟩,
  ⟨"KEY_USAGE", "2.5.29.15", 129,
    [0x55, 0x1D, 0x0F]⟩,
  ⟨"EXT_KEY_USAGE", "2.5.29.37", 151,
    [0x55, 0x1D, 0x25]⟩,
  ⟨"SUBJECT_ALT_NAME", "2.5.29.17", 131,
    [0x55, 0x1D, 0x11]⟩,
  ⟨"ISSUER_ALT_NAME", "2.5.29.18", 132,
    [0x55, 0x1D, 0x12]⟩,
  ⟨"SUBJECT_KEY_ID", "2.5.29.14", 128,
    [0x55, 0x1D, 0x0E]⟩,
  ⟨"AUTH_KEY_ID", "2.5.29.35", 149,
    [0x55, 0x1D, 0x23]⟩,
  ⟨"CRL_DIST_POINTS", "2.5.29.31", 145,
    [0x55, 0x1D, 0x1F]⟩,
  ⟨"CERT_POLICIES", "2.5.29.32", 146,
    [0x55, 0x1D, 0x20]⟩,
  ⟨"NAME_CONSTRAINTS", "2.5.29.30", 144,
    [0x55, 0x1D, 0x1E]⟩,
  ⟨"POLICY_CONSTRAINTS", "2.5.29.36", 150,
    [0x55, 0x1D, 0x24]⟩,
  ⟨"INHIBIT_ANY_POLICY", "2.5.29.54", 168,
    [0x55, 0x1D, 0x36]⟩,
  ⟨"CRL_NUMBER", "2.5.29.20", 134,
    [0x55, 0x1D, 0x14]⟩,
  ⟨"AUTH_INFO_ACCESS", "1.3.6.1.5.5.7.1.1", 69,
    [0x2B, 0x06, 0x01, 0x05, 0x05, 0x07, 0x01, 0x01]⟩,
  ⟨"OCSP_NONCE", "1.3.6.1.5.5.7.48.1.2", 118,
    [0x2B, 0x06, 0x01, 0x05, 0x05, 0x07, 0x30, 0x01, 0x02]⟩]

def extKeyUsageTable : List Known := [
  ⟨"ANY", "2.5.29.37.0", 151,
    [0x55, 0x1D, 0x25, 0x00]⟩,
  ⟨"SERVER_AUTH", "1.3.6.1.5.5.7.3.1", 71,
    [0x2B, 0x06, 0x01, 0x05, 0x05, 0x07, 0x03, 0x01]⟩,
  ⟨"CLIENT_AUTH", "1.3.6.1.5.5.7.3.2", 72,
    [0x2B, 0x06, 0x01, 0x05, 0x05, 0x07, 0x03, 0x02]⟩,
  ⟨"CODE_SIGNING", "1.3.6.1.5.5.7.3.3", 73,
    [0x2B, 0x06, 0x01, 0x05, 0x05, 0x07, 0x03, 0x03]⟩,
  ⟨"EMAIL_PROTECTION", "1.3.6.1.5.5.7.3.4", 74,
    [0x2B, 0x06, 0x01, 0x05, 0x05, 0x07, 0x03, 0x04]⟩,
  ⟨"TIME_STAMPING", "1.3.6.1.5.5.7.3.8", 78,
    [0x2B, 0x06, 0x01, 0x05, 0x05, 0x07, 0x03, 0x08]⟩,
  ⟨"OCSP_SIGNING", "1.3.6.1.5.5.7.3.9", 79,
    [0x2B, 0x06, 0x01, 0x05, 0x05, 0x07, 0x03, 0x09]⟩]

def authInfoTable : List Known := [
  ⟨"OCSP", "1.3.6.1.5.5.7.48.1", 116,
    [0x2B, 0x06, 0x01, 0x05, 0x05, 0x07, 0x30, 0x01]⟩,
  ⟨"CA_ISSUERS", "1.3.6.1.5.5.7.48.2", 117,
    [0x2B, 0x06, 0x01, 0x05, 0x05, 0x07, 0x30, 0x02]⟩]

def ocspTable : List Known := [
  ⟨"BASIC", "1.3.6.1.5.5.7.48.1.1", 117,
    [0x2B, 0x06, 0x01, 0x05, 0x05, 0x07, 0x30, 0x01, 0x01]⟩,
  ⟨"NONCE", "1.3.6.1.5.5.7.48.1.2", 118,
    [0x2B, 0x06, 0x01, 0x05, 0x05, 0x07, 0x30, 0x01, 0x02]⟩]

def nameTable : List Known := [
  ⟨"COMMON_NAME", "2.5.4.3", 92,
    [0x55, 0x04, 0x03]⟩,
  ⟨"SURNAME", "2.5.4.4", 93,
    [0x55, 0x04, 0x04]⟩,
  ⟨"SERIAL_NUMBER", "2.5.4.5", 94,
    [0x55, 0x04, 0x05]⟩,
  ⟨"COUNTRY", "2.5.4.6", 95,
    [0x55, 0x04, 0x06]⟩,
  ⟨"LOCALITY", "2.5.4.7", 96,
    [0x55, 0x04, 0x07]⟩,
  ⟨"STATE", "2.5.4.8", 97,
    [0x55, 0x04, 0x08]⟩,
  ⟨"STREET", "2.5.4.9", 98,
    [0x55, 0x04, 0x09]⟩,
  ⟨"ORGANIZATION", "2.5.4.10", 99,
    [0x55, 0x04, 0x0A]⟩,
  ⟨"ORG_UNIT", "2.5.4.11", 100,
    [0x55, 0x04, 0x0B]⟩,
  ⟨"TITLE", "2.5.4.12", 101,
    [0x55, 0x04, 0x0C]⟩,
  ⟨"EMAIL_ADDRESS", "1.2.840.113549.1.9.1", 653,
    [0x2A, 0x86, 0x48, 0x86, 0xF7, 0x0D, 0x01, 0x09, 0x01]⟩,
  ⟨"DOMAIN_COMPONENT", "0.9.2342.19200300.100.1.25", 889,
    [0x09, 0x92, 0x26, 0x89, 0x93, 0xF2, 0x2C, 0x64, 0x01, 0x19]⟩]

def Category.table : Category → List Known
  | .ignore => []
  | .hash => hashTable
  | .sig => sigTable
  | .key => keyTable
  | .curve => curveTable
  | .certExt => certExtTable
  | .extKeyUsage => extKeyUsageTable
  | .authInfo => authInfoTable
  | .ocsp => ocspTable
  | .name => nameTable

end DerTemplate.Oid
