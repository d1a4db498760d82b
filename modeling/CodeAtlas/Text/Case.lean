import CodeAtlas.Text.Ranges

/-!
# Letter case

Full case mappings: a character may become several, and a capital sigma that ends a word becomes
the final form.  Texts that are plain ASCII never reach a table.

## Main definitions

* `lower`, `upper` — the mappings of a text
* `capitalize` — the first character in title case, the rest in lower case
-/

namespace CodeAtlas.Text

/-- Lower-case forms that are one character. -/
def lowerShifts : Shifts := Shifts.ofText
  "192 23 1 0 32 24 7 1 0 32 40 24 2 0 1 50 3 2 0 1 7 8 2 0 1 17 23 2 0 1 46 1 1 1 121 1 3 2 0
  1 8 1 1 0 210 1 2 2 0 1 4 1 1 0 206 1 1 1 0 1 2 2 1 0 205 2 1 1 0 1 3 1 1 0 79 1 1 1 0 202
  1 1 1 0 203 1 1 1 0 1 2 1 1 0 205 1 1 1 0 207 2 1 1 0 211 1 1 1 0 209 1 1 1 0 1 4 1 1 0 211
  1 1 1 0 213 2 1 1 0 214 1 3 2 0 1 6 1 1 0 218 1 1 1 0 1 2 1 1 0 218 3 1 1 0 1 2 1 1 0 218 1
  1 1 0 1 2 2 1 0 217 2 2 2 0 1 4 1 1 0 219 1 1 1 0 1 4 1 1 0 1 8 1 1 0 2 1 1 1 0 1 2 1 1 0 2
  1 1 1 0 1 2 1 1 0 2 1 9 2 0 1 19 9 2 0 1 19 1 1 0 2 1 2 2 0 1 4 1 1 1 97 1 1 1 1 56 1 20 2
  0 1 40 1 1 1 130 2 9 2 0 1 24 1 1 0 10795 1 1 1 0 1 2 1 1 1 163 1 1 1 0 10792 3 1 1 0 1 2 1
  1 1 195 1 1 1 0 69 1 1 1 0 71 1 5 2 0 1 298 2 2 0 1 6 1 1 0 1 9 1 1 0 116 7 1 1 0 38 2 3 1
  0 37 4 1 1 0 64 2 2 1 0 63 3 17 1 0 32 18 9 1 0 32 44 1 1 0 8 9 12 2 0 1 28 1 1 1 60 3 1 1
  0 1 2 1 1 1 7 1 1 1 0 1 3 3 1 1 130 3 16 1 0 80 16 32 1 0 32 80 17 2 0 1 42 27 2 0 1 54 1 1
  0 15 1 7 2 0 1 15 48 2 0 1 97 38 1 0 48 2927 38 1 0 7264 39 1 1 0 7264 6 1 1 0 7264 723 80
  1 0 38864 80 6 1 0 8 2208 43 1 1 3008 45 3 1 1 3008 323 75 2 0 1 158 1 1 1 7615 2 48 2 0 1
  104 8 1 1 8 16 6 1 1 8 16 8 1 1 8 16 8 1 1 8 16 6 1 1 8 17 4 2 1 8 15 8 1 1 8 32 8 1 1 8 16
  8 1 1 8 16 8 1 1 8 16 2 1 1 8 2 2 1 1 74 2 1 1 1 9 12 4 1 1 86 4 1 1 1 9 12 2 1 1 8 2 2 1 1
  100 14 2 1 1 8 2 2 1 1 112 2 1 1 1 7 12 2 1 1 128 2 2 1 1 126 2 1 1 1 9 298 1 1 1 7517 4 1
  1 1 8383 1 1 1 1 8262 7 1 1 0 28 46 16 1 0 16 35 1 1 0 1 819 26 1 0 26 1866 48 1 0 48 96 1
  1 0 1 2 1 1 1 10743 1 1 1 1 3814 1 1 1 1 10727 3 3 2 0 1 6 1 1 1 10780 1 1 1 1 10749 1 1 1
  1 10783 1 1 1 1 10782 2 1 1 0 1 3 1 1 0 1 9 2 1 1 10815 2 50 2 0 1 107 2 2 0 1 7 1 1 0 1
  31054 23 2 0 1 64 14 2 0 1 162 7 2 0 1 16 31 2 0 1 71 2 2 0 1 4 1 1 1 35332 1 5 2 0 1 13 1
  1 0 1 2 1 1 1 42280 3 2 2 0 1 6 10 2 0 1 20 1 1 1 42308 1 1 1 1 42319 1 1 1 1 42315 1 1 1 1
  42305 1 1 1 1 42308 2 1 1 1 42258 1 1 1 1 42282 1 1 1 1 42261 1 1 1 0 928 1 8 2 0 1 16 1 1
  1 48 1 1 1 1 42307 1 1 1 1 35384 1 2 2 0 1 9 1 1 0 1 6 2 2 0 1 31 1 1 0 1 22316 26 1 0 32
  1247 40 1 0 40 176 36 1 0 40 192 11 1 0 39 12 15 1 0 39 16 7 1 0 39 8 2 1 0 39 1772 51 1 0
  64 3104 32 1 0 32 21920 32 1 0 32 31424 34 1 0 34"

/-- Upper-case forms that are one character. -/
def upperShifts : Shifts := Shifts.ofText
  "181 1 1 0 743 43 23 1 1 32 24 7 1 1 32 7 1 1 0 121 2 24 2 1 1 48 1 1 1 232 2 3 2 1 1 7 8 2
  1 1 17 23 2 1 1 47 3 2 1 1 5 1 1 1 300 1 1 1 0 195 3 2 2 1 1 5 1 1 1 1 4 1 1 1 1 6 1 1 1 1
  3 1 1 0 97 4 1 1 1 1 1 1 1 0 163 4 1 1 0 130 3 3 2 1 1 7 1 1 1 1 5 1 1 1 1 3 1 1 1 1 4 2 2
  1 1 5 1 1 1 1 4 1 1 1 1 2 1 1 0 56 6 1 1 1 1 1 1 1 1 2 2 1 1 1 1 1 1 1 1 2 2 1 1 1 1 1 1 1
  1 2 2 8 2 1 1 15 1 1 1 79 2 9 2 1 1 19 1 1 1 1 1 1 1 1 2 2 1 1 1 1 4 20 2 1 1 42 9 2 1 1 25
  1 1 1 1 3 2 1 0 10815 3 1 1 1 1 5 5 2 1 1 9 1 1 0 10783 1 1 1 0 10780 1 1 1 0 10782 1 1 1 1
  210 1 1 1 1 206 2 2 1 1 205 3 1 1 1 202 2 1 1 1 203 1 1 1 0 42319 4 1 1 1 205 1 1 1 0 42315
  2 1 1 1 207 2 1 1 0 42280 1 1 1 0 42308 2 1 1 1 209 1 1 1 1 211 1 1 1 0 42308 1 1 1 0 10743
  1 1 1 0 42305 3 1 1 1 211 2 1 1 0 10749 1 1 1 1 213 3 1 1 1 214 8 1 1 0 10727 3 1 1 1 218 2
  1 1 0 42307 1 1 1 1 218 4 1 1 0 42282 1 1 1 1 218 1 1 1 1 69 1 2 1 1 217 2 1 1 1 71 6 1 1 1
  219 11 1 1 0 42261 1 1 1 0 42258 167 1 1 0 84 44 2 2 1 1 6 1 1 1 1 4 3 1 0 130 49 1 1 1 38
  1 3 1 1 37 4 17 1 1 32 17 1 1 1 31 1 9 1 1 32 9 1 1 1 64 1 2 1 1 63 3 1 1 1 62 1 1 1 1 57 4
  1 1 1 47 1 1 1 1 54 1 1 1 1 8 2 12 2 1 1 23 1 1 1 86 1 1 1 1 80 1 1 1 0 7 1 1 1 1 116 2 1 1
  1 96 3 1 1 1 1 3 1 1 1 1 53 32 1 1 32 32 16 1 1 80 17 17 2 1 1 42 27 2 1 1 55 7 2 1 1 13 1
  1 1 15 2 48 2 1 1 144 38 1 1 48 2927 43 1 0 3008 45 3 1 0 3008 763 6 1 1 8 2184 1 1 1 6254
  1 1 1 1 6253 1 1 1 1 6244 1 2 1 1 6242 2 1 1 1 6243 1 1 1 1 6236 1 1 1 1 6181 1 1 1 0 35266
  241 1 1 0 35332 4 1 1 0 3814 17 1 1 0 35384 115 75 2 1 1 154 1 1 1 59 6 48 2 1 1 95 8 1 0 8
  16 6 1 0 8 16 8 1 0 8 16 8 1 0 8 16 6 1 0 8 17 4 2 0 8 15 8 1 0 8 16 2 1 0 74 2 4 1 0 86 4
  2 1 0 100 2 2 1 0 128 2 2 1 0 112 2 2 1 0 126 52 2 1 0 8 14 1 1 1 7205 18 2 1 0 8 16 2 1 0
  8 5 1 1 0 7 361 1 1 1 28 34 16 1 1 16 20 1 1 1 1 844 26 1 1 26 1888 48 1 1 48 49 1 1 1 1 4
  1 1 1 10795 1 1 1 1 10792 2 3 2 1 1 11 1 1 1 1 3 1 1 1 1 11 50 2 1 1 107 2 2 1 1 7 1 1 1 1
  13 38 1 1 7264 39 1 1 1 7264 6 1 1 1 7264 30996 23 2 1 1 64 14 2 1 1 162 7 2 1 1 16 31 2 1
  1 71 2 2 1 1 5 5 2 1 1 13 1 1 1 1 5 2 2 1 1 3 1 1 0 48 3 10 2 1 1 30 8 2 1 1 19 2 2 1 1 9 1
  1 1 1 6 2 2 1 1 31 1 1 1 1 861 1 1 1 928 29 80 1 1 38864 21457 26 1 1 32 1255 40 1 1 40 176
  36 1 1 40 191 11 1 1 39 12 15 1 1 39 16 7 1 1 39 8 2 1 1 39 1797 51 1 1 64 3072 32 1 1 32
  21920 32 1 1 32 31426 34 1 1 34"

/-- Forms of several characters, as code point, length, and the characters. -/
def expansionsOf : List Nat → List (Nat × List Nat)
  | code :: size :: rest => (code, rest.take size) :: expansionsOf (rest.drop size)
  | _ => []
termination_by numbers => numbers.length
decreasing_by simp; omega

/-- Lower-case forms of several characters. -/
def lowerExpansions : List (Nat × List Nat) := expansionsOf (decimals
  "304 2 105 775")

/-- Upper-case forms of several characters. -/
def upperExpansions : List (Nat × List Nat) := expansionsOf (decimals
  "223 2 83 83 329 2 700 78 496 2 74 780 912 3 921 776 769 944 3 933 776 769 1415 2 1333 1362
  7830 2 72 817 7831 2 84 776 7832 2 87 778 7833 2 89 778 7834 2 65 702 8016 2 933 787 8018 3
  933 787 768 8020 3 933 787 769 8022 3 933 787 834 8064 2 7944 921 8065 2 7945 921 8066 2
  7946 921 8067 2 7947 921 8068 2 7948 921 8069 2 7949 921 8070 2 7950 921 8071 2 7951 921
  8072 2 7944 921 8073 2 7945 921 8074 2 7946 921 8075 2 7947 921 8076 2 7948 921 8077 2 7949
  921 8078 2 7950 921 8079 2 7951 921 8080 2 7976 921 8081 2 7977 921 8082 2 7978 921 8083 2
  7979 921 8084 2 7980 921 8085 2 7981 921 8086 2 7982 921 8087 2 7983 921 8088 2 7976 921
  8089 2 7977 921 8090 2 7978 921 8091 2 7979 921 8092 2 7980 921 8093 2 7981 921 8094 2 7982
  921 8095 2 7983 921 8096 2 8040 921 8097 2 8041 921 8098 2 8042 921 8099 2 8043 921 8100 2
  8044 921 8101 2 8045 921 8102 2 8046 921 8103 2 8047 921 8104 2 8040 921 8105 2 8041 921
  8106 2 8042 921 8107 2 8043 921 8108 2 8044 921 8109 2 8045 921 8110 2 8046 921 8111 2 8047
  921 8114 2 8122 921 8115 2 913 921 8116 2 902 921 8118 2 913 834 8119 3 913 834 921 8124 2
  913 921 8130 2 8138 921 8131 2 919 921 8132 2 905 921 8134 2 919 834 8135 3 919 834 921
  8140 2 919 921 8146 3 921 776 768 8147 3 921 776 769 8150 2 921 834 8151 3 921 776 834 8162
  3 933 776 768 8163 3 933 776 769 8164 2 929 787 8166 2 933 834 8167 3 933 776 834 8178 2
  8186 921 8179 2 937 921 8180 2 911 921 8182 2 937 834 8183 3 937 834 921 8188 2 937 921
  64256 2 70 70 64257 2 70 73 64258 2 70 76 64259 3 70 70 73 64260 3 70 70 76 64261 2 83 84
  64262 2 83 84 64275 2 1348 1350 64276 2 1348 1333 64277 2 1348 1339 64278 2 1358 1350 64279
  2 1348 1341")

/-- Title-case forms where they differ from the upper-case form. -/
def titleExpansions : List (Nat × List Nat) := expansionsOf (decimals
  "223 2 83 115 452 1 453 453 1 453 454 1 453 455 1 456 456 1 456 457 1 456 458 1 459 459 1
  459 460 1 459 497 1 498 498 1 498 499 1 498 1415 2 1333 1410 4304 1 4304 4305 1 4305 4306 1
  4306 4307 1 4307 4308 1 4308 4309 1 4309 4310 1 4310 4311 1 4311 4312 1 4312 4313 1 4313
  4314 1 4314 4315 1 4315 4316 1 4316 4317 1 4317 4318 1 4318 4319 1 4319 4320 1 4320 4321 1
  4321 4322 1 4322 4323 1 4323 4324 1 4324 4325 1 4325 4326 1 4326 4327 1 4327 4328 1 4328
  4329 1 4329 4330 1 4330 4331 1 4331 4332 1 4332 4333 1 4333 4334 1 4334 4335 1 4335 4336 1
  4336 4337 1 4337 4338 1 4338 4339 1 4339 4340 1 4340 4341 1 4341 4342 1 4342 4343 1 4343
  4344 1 4344 4345 1 4345 4346 1 4346 4349 1 4349 4350 1 4350 4351 1 4351 8064 1 8072 8065 1
  8073 8066 1 8074 8067 1 8075 8068 1 8076 8069 1 8077 8070 1 8078 8071 1 8079 8072 1 8072
  8073 1 8073 8074 1 8074 8075 1 8075 8076 1 8076 8077 1 8077 8078 1 8078 8079 1 8079 8080 1
  8088 8081 1 8089 8082 1 8090 8083 1 8091 8084 1 8092 8085 1 8093 8086 1 8094 8087 1 8095
  8088 1 8088 8089 1 8089 8090 1 8090 8091 1 8091 8092 1 8092 8093 1 8093 8094 1 8094 8095 1
  8095 8096 1 8104 8097 1 8105 8098 1 8106 8099 1 8107 8100 1 8108 8101 1 8109 8102 1 8110
  8103 1 8111 8104 1 8104 8105 1 8105 8106 1 8106 8107 1 8107 8108 1 8108 8109 1 8109 8110 1
  8110 8111 1 8111 8114 2 8122 837 8115 1 8124 8116 2 902 837 8119 3 913 834 837 8124 1 8124
  8130 2 8138 837 8131 1 8140 8132 2 905 837 8135 3 919 834 837 8140 1 8140 8178 2 8186 837
  8179 1 8188 8180 2 911 837 8183 3 937 834 837 8188 1 8188 64256 2 70 102 64257 2 70 105
  64258 2 70 108 64259 3 70 102 105 64260 3 70 102 108 64261 2 83 116 64262 2 83 116 64275 2
  1348 1398 64276 2 1348 1381 64277 2 1348 1387 64278 2 1358 1398 64279 2 1348 1389")

/-- Characters that have a case, as far as the final sigma can see them. -/
def casedRanges : Ranges := Ranges.ofGaps
  "170 1 10 1 4 1 5 23 1 31 1 195 1 4 4 208 1 27 192 4 2 2 3 3 1 1 6 1 1 3 1 1 1 20 1 83 1 139
  8 166 1 38 9 41 2839 38 1 1 5 1 2 43 2 3 672 86 2 6 2178 9 7 43 2 3 64 44 63 13 1 34 101
  278 2 6 2 38 2 6 2 8 1 1 1 1 1 1 1 31 2 53 1 7 1 1 3 3 1 7 3 4 2 6 4 13 5 3 1 7 261 1 4 1 2
  10 1 1 3 5 6 1 1 1 1 1 1 4 1 6 4 1 2 4 5 5 4 1 17 32 3 2 817 52 1814 124 2 103 6 4 3 2 12
  38 1 1 5 1 30994 46 18 28 134 78 1 23 3 4 1 59 5 2 1 1 1 5 27 2 3 1 821 43 5 9 7 80 20288 7
  12 5 1033 26 6 26 1189 80 96 36 4 36 116 11 1 15 1 7 1 2 1 11 1 15 1 7 1 2 1731 51 13 51
  2989 64 21856 64 25984 85 1 71 1 2 2 1 2 2 2 4 1 12 1 1 1 7 1 65 1 4 2 8 1 7 1 28 1 4 1 5 1
  1 3 7 1 340 2 25 1 25 1 31 1 25 1 31 1 25 1 31 1 25 1 31 1 25 1 8 1844 10 1 20 2529 68 2028
  26 6 26 6 26"

/-- Characters that the final sigma looks past. -/
def caseIgnorableRanges : Ranges := Ranges.ofGaps
  "168 1 4 1 1 1 4 1 2 2 503 192 4 2 4 1 9 2 1 1 251 7 207 1 5 1 49 45 1 1 1 2 1 2 1 1 44 1 11
  6 10 11 1 1 35 1 10 21 16 1 101 8 1 10 1 4 33 1 1 1 30 27 91 11 58 11 4 1 2 1 24 24 43 3 44
  1 7 2 6 8 41 58 55 1 1 1 4 8 4 1 3 7 10 2 13 1 15 1 58 1 4 4 8 1 20 2 26 1 2 2 57 1 4 2 4 2
  2 3 3 1 30 2 3 1 11 2 57 1 4 5 1 2 4 1 20 2 22 6 1 1 58 1 2 1 1 4 8 1 7 2 11 2 30 1 61 1 12
  1 50 1 3 1 55 1 1 3 5 3 1 4 7 2 11 2 29 1 58 1 2 1 6 1 5 2 20 2 28 2 57 2 4 4 8 1 20 2 29 1
  72 1 7 3 1 1 90 1 2 7 11 9 98 1 2 9 9 1 1 6 74 2 27 1 1 1 1 1 55 14 1 5 1 2 5 11 1 36 9 1
  102 4 1 6 1 2 2 2 25 2 4 3 16 4 13 1 2 2 6 1 15 1 94 1 608 3 946 3 29 2 30 2 30 2 64 2 1 7
  8 1 2 11 3 1 5 1 45 5 51 1 65 2 34 1 118 3 4 2 9 1 6 3 219 2 2 1 58 1 1 7 1 1 1 1 2 8 6 10
  2 1 39 1 8 31 49 4 48 1 1 5 1 1 5 1 40 9 12 2 32 4 2 2 1 3 56 1 1 2 3 1 1 3 58 8 2 2 64 6
  82 3 1 13 1 7 4 1 6 1 3 2 50 63 13 1 34 101 445 1 1 3 11 3 13 3 13 3 13 2 12 5 8 2 10 1 2 1
  2 5 49 5 1 10 1 1 13 1 16 13 51 33 2955 2 113 3 125 1 15 1 96 32 47 1 469 1 36 4 3 5 5 1 93
  6 93 3 28438 1 1250 6 270 1 98 4 1 10 1 1 28 4 80 2 14 34 78 1 23 3 103 3 3 2 8 1 3 1 4 1
  25 2 5 1 151 2 26 18 13 1 38 8 25 11 46 3 48 1 2 4 2 2 17 1 21 2 66 6 2 2 2 2 12 1 8 1 35 1
  11 1 51 1 1 3 2 2 5 2 1 1 27 1 14 2 5 2 1 1 100 5 9 3 121 1 2 1 4 1 20272 1 147 17 573 16 3
  1 12 16 34 1 2 1 169 1 7 1 6 1 11 1 35 1 1 1 47 1 45 2 67 1 21 3 513 1 226 1 149 5 1029 6 1
  42 1 9 582 3 1 2 5 4 40 3 4 1 165 2 573 4 387 2 153 11 49 4 123 1 54 15 41 1 2 2 10 3 49 4
  2 2 2 1 4 1 10 1 50 3 36 5 1 8 62 1 12 2 52 9 10 4 2 1 95 3 2 1 1 2 6 1 160 1 3 8 21 2 57 2
  3 1 37 7 3 5 195 8 2 3 1 1 23 1 84 6 1 1 4 2 1 2 238 4 6 2 1 2 27 2 85 8 2 1 1 2 106 1 1 1
  2 6 1 1 101 3 2 4 1 5 259 9 1 2 256 2 1 1 4 1 144 4 2 2 4 1 32 10 40 6 2 4 8 1 9 6 2 3 46
  13 1 2 406 7 1 6 1 1 82 22 2 7 1 2 1 2 122 6 3 1 1 2 1 7 1 1 72 2 3 1 1 1 347 2 5435 9
  14007 5 59 7 9 4 1035 1 63 17 64 2 1 2 16395 4 1 7 1 2 3230 2 1 4 4700 46 2 23 544 3 9 16 2
  7 30 4 148 3 1979 55 4 50 8 1 14 1 22 5 1 15 1360 7 1 17 2 7 1 2 1 5 261 14 368 1 61 4 1504
  7 109 8 2735 5 789505 1 30 96 128 240"

/-- A mapped character: the expansion if there is one, else the shifted character. -/
def mapCase (expansions : List (Nat × List Nat)) (shifts : Shifts) (c : Char) : List Char :=
  match expansions.find? (·.1 == c.toNat) with
  | some (_, codes) => codes.map Char.ofNat
  | none => [(shifts.get? c.toNat).elim c Char.ofNat]

/-- The lower-case form of one character. -/
def lowerChar (c : Char) : List Char :=
  if c.toNat < 128 then [c.toLower] else mapCase lowerExpansions lowerShifts c

/-- The upper-case form of one character. -/
def upperChar (c : Char) : List Char :=
  if c.toNat < 128 then [c.toUpper] else mapCase upperExpansions upperShifts c

/-- The title-case form of one character. -/
def titleChar (c : Char) : List Char :=
  if c.toNat < 128 then [c.toUpper]
  else match titleExpansions.find? (·.1 == c.toNat) with
    | some (_, codes) => codes.map Char.ofNat
    | none => upperChar c

/-- A character that has a case. -/
def isCased (c : Char) : Bool :=
  if c.toNat < 128 then c.isAlpha else casedRanges.contains c.toNat

/-- A character that does not separate a letter from the end of its word. -/
def isCaseIgnorable (c : Char) : Bool :=
  if c.toNat < 128 then ['\'', '.', ':', '^', (Char.ofNat 96)].contains c
  else caseIgnorableRanges.contains c.toNat

/-- Whether the nearest character that is not ignorable has a case. -/
def nearestIsCased (cs : List Char) : Bool :=
  match cs.dropWhile isCaseIgnorable with
  | c :: _ => isCased c
  | [] => false

/-- Lower case, given the characters already passed, the nearest first. -/
def lowerFrom (before : List Char) : List Char → List Char
  | [] => []
  | c :: rest =>
    let here :=
      if c.toNat = 0x3A3 then
        [Char.ofNat (if nearestIsCased before && !nearestIsCased rest then 0x3C2 else 0x3C3)]
      else lowerChar c
    here ++ lowerFrom (c :: before) rest

/-- The lower-case form of a text. -/
def lower (s : String) : String := String.ofList (lowerFrom [] s.toList)

/-- The upper-case form of a text. -/
def upper (s : String) : String := String.ofList (s.toList.flatMap upperChar)

/-- The first character in title case and the rest in lower case. -/
def capitalize (s : String) : String :=
  match s.toList with
  | [] => ""
  | c :: rest => String.ofList (titleChar c ++ lowerFrom [c] rest)

end CodeAtlas.Text
