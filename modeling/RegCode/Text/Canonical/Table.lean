import RegCode.Text.Sorted

/-!
# Data of canonical composition

Combining classes, decompositions and composites of version 15 of the Unicode character database. An
entry packs code points of five hexadecimal digits each, and the entries of a table are in order:

* `decompositions`: a character and the one or two that it is equivalent to (zero for no second);
* `composites`: a first and a second character, by their low sixteen bits, and the composite of the two;
* `classes`: first and last character of a run and, in two digits, their combining class;
* `joining`: first and last character of a run that can be the second of a composite;
* `compatible`: first and last character of a run whose compatibility form ends in marks, a digit that
  is one if it also starts with one, and the number of these marks.
-/

set_option maxRecDepth 10000

namespace RegCode.Text.Canonical

def decompositions : Array Nat := #[
  0x000C00004100300, 0x000C10004100301, 0x000C20004100302, 0x000C30004100303, 0x000C40004100308,
  0x000C5000410030A, 0x000C70004300327, 0x000C80004500300, 0x000C90004500301, 0x000CA0004500302,
  0x000CB0004500308, 0x000CC0004900300, 0x000CD0004900301, 0x000CE0004900302, 0x000CF0004900308,
  0x000D10004E00303, 0x000D20004F00300, 0x000D30004F00301, 0x000D40004F00302, 0x000D50004F00303,
  0x000D60004F00308, 0x000D90005500300, 0x000DA0005500301, 0x000DB0005500302, 0x000DC0005500308,
  0x000DD0005900301, 0x000E00006100300, 0x000E10006100301, 0x000E20006100302, 0x000E30006100303,
  0x000E40006100308, 0x000E5000610030A, 0x000E70006300327, 0x000E80006500300, 0x000E90006500301,
  0x000EA0006500302, 0x000EB0006500308, 0x000EC0006900300, 0x000ED0006900301, 0x000EE0006900302,
  0x000EF0006900308, 0x000F10006E00303, 0x000F20006F00300, 0x000F30006F00301, 0x000F40006F00302,
  0x000F50006F00303, 0x000F60006F00308, 0x000F90007500300, 0x000FA0007500301, 0x000FB0007500302,
  0x000FC0007500308, 0x000FD0007900301, 0x000FF0007900308, 0x001000004100304, 0x001010006100304,
  0x001020004100306, 0x001030006100306, 0x001040004100328, 0x001050006100328, 0x001060004300301,
  0x001070006300301, 0x001080004300302, 0x001090006300302, 0x0010A0004300307, 0x0010B0006300307,
  0x0010C000430030C, 0x0010D000630030C, 0x0010E000440030C, 0x0010F000640030C, 0x001120004500304,
  0x001130006500304, 0x001140004500306, 0x001150006500306, 0x001160004500307, 0x001170006500307,
  0x001180004500328, 0x001190006500328, 0x0011A000450030C, 0x0011B000650030C, 0x0011C0004700302,
  0x0011D0006700302, 0x0011E0004700306, 0x0011F0006700306, 0x001200004700307, 0x001210006700307,
  0x001220004700327, 0x001230006700327, 0x001240004800302, 0x001250006800302, 0x001280004900303,
  0x001290006900303, 0x0012A0004900304, 0x0012B0006900304, 0x0012C0004900306, 0x0012D0006900306,
  0x0012E0004900328, 0x0012F0006900328, 0x001300004900307, 0x001340004A00302, 0x001350006A00302,
  0x001360004B00327, 0x001370006B00327, 0x001390004C00301, 0x0013A0006C00301, 0x0013B0004C00327,
  0x0013C0006C00327, 0x0013D0004C0030C, 0x0013E0006C0030C, 0x001430004E00301, 0x001440006E00301,
  0x001450004E00327, 0x001460006E00327, 0x001470004E0030C, 0x001480006E0030C, 0x0014C0004F00304,
  0x0014D0006F00304, 0x0014E0004F00306, 0x0014F0006F00306, 0x001500004F0030B, 0x001510006F0030B,
  0x001540005200301, 0x001550007200301, 0x001560005200327, 0x001570007200327, 0x00158000520030C,
  0x00159000720030C, 0x0015A0005300301, 0x0015B0007300301, 0x0015C0005300302, 0x0015D0007300302,
  0x0015E0005300327, 0x0015F0007300327, 0x00160000530030C, 0x00161000730030C, 0x001620005400327,
  0x001630007400327, 0x00164000540030C, 0x00165000740030C, 0x001680005500303, 0x001690007500303,
  0x0016A0005500304, 0x0016B0007500304, 0x0016C0005500306, 0x0016D0007500306, 0x0016E000550030A,
  0x0016F000750030A, 0x00170000550030B, 0x00171000750030B, 0x001720005500328, 0x001730007500328,
  0x001740005700302, 0x001750007700302, 0x001760005900302, 0x001770007900302, 0x001780005900308,
  0x001790005A00301, 0x0017A0007A00301, 0x0017B0005A00307, 0x0017C0007A00307, 0x0017D0005A0030C,
  0x0017E0007A0030C, 0x001A00004F0031B, 0x001A10006F0031B, 0x001AF000550031B, 0x001B0000750031B,
  0x001CD000410030C, 0x001CE000610030C, 0x001CF000490030C, 0x001D0000690030C, 0x001D10004F0030C,
  0x001D20006F0030C, 0x001D3000550030C, 0x001D4000750030C, 0x001D5000DC00304, 0x001D6000FC00304,
  0x001D7000DC00301, 0x001D8000FC00301, 0x001D9000DC0030C, 0x001DA000FC0030C, 0x001DB000DC00300,
  0x001DC000FC00300, 0x001DE000C400304, 0x001DF000E400304, 0x001E00022600304, 0x001E10022700304,
  0x001E2000C600304, 0x001E3000E600304, 0x001E6000470030C, 0x001E7000670030C, 0x001E80004B0030C,
  0x001E90006B0030C, 0x001EA0004F00328, 0x001EB0006F00328, 0x001EC001EA00304, 0x001ED001EB00304,
  0x001EE001B70030C, 0x001EF002920030C, 0x001F00006A0030C, 0x001F40004700301, 0x001F50006700301,
  0x001F80004E00300, 0x001F90006E00300, 0x001FA000C500301, 0x001FB000E500301, 0x001FC000C600301,
  0x001FD000E600301, 0x001FE000D800301, 0x001FF000F800301, 0x00200000410030F, 0x00201000610030F,
  0x002020004100311, 0x002030006100311, 0x00204000450030F, 0x00205000650030F, 0x002060004500311,
  0x002070006500311, 0x00208000490030F, 0x00209000690030F, 0x0020A0004900311, 0x0020B0006900311,
  0x0020C0004F0030F, 0x0020D0006F0030F, 0x0020E0004F00311, 0x0020F0006F00311, 0x00210000520030F,
  0x00211000720030F, 0x002120005200311, 0x002130007200311, 0x00214000550030F, 0x00215000750030F,
  0x002160005500311, 0x002170007500311, 0x002180005300326, 0x002190007300326, 0x0021A0005400326,
  0x0021B0007400326, 0x0021E000480030C, 0x0021F000680030C, 0x002260004100307, 0x002270006100307,
  0x002280004500327, 0x002290006500327, 0x0022A000D600304, 0x0022B000F600304, 0x0022C000D500304,
  0x0022D000F500304, 0x0022E0004F00307, 0x0022F0006F00307, 0x002300022E00304, 0x002310022F00304,
  0x002320005900304, 0x002330007900304, 0x003400030000000, 0x003410030100000, 0x003430031300000,
  0x003440030800301, 0x00374002B900000, 0x0037E0003B00000, 0x00385000A800301, 0x003860039100301,
  0x00387000B700000, 0x003880039500301, 0x003890039700301, 0x0038A0039900301, 0x0038C0039F00301,
  0x0038E003A500301, 0x0038F003A900301, 0x00390003CA00301, 0x003AA0039900308, 0x003AB003A500308,
  0x003AC003B100301, 0x003AD003B500301, 0x003AE003B700301, 0x003AF003B900301, 0x003B0003CB00301,
  0x003CA003B900308, 0x003CB003C500308, 0x003CC003BF00301, 0x003CD003C500301, 0x003CE003C900301,
  0x003D3003D200301, 0x003D4003D200308, 0x004000041500300, 0x004010041500308, 0x004030041300301,
  0x004070040600308, 0x0040C0041A00301, 0x0040D0041800300, 0x0040E0042300306, 0x004190041800306,
  0x004390043800306, 0x004500043500300, 0x004510043500308, 0x004530043300301, 0x004570045600308,
  0x0045C0043A00301, 0x0045D0043800300, 0x0045E0044300306, 0x00476004740030F, 0x00477004750030F,
  0x004C10041600306, 0x004C20043600306, 0x004D00041000306, 0x004D10043000306, 0x004D20041000308,
  0x004D30043000308, 0x004D60041500306, 0x004D70043500306, 0x004DA004D800308, 0x004DB004D900308,
  0x004DC0041600308, 0x004DD0043600308, 0x004DE0041700308, 0x004DF0043700308, 0x004E20041800304,
  0x004E30043800304, 0x004E40041800308, 0x004E50043800308, 0x004E60041E00308, 0x004E70043E00308,
  0x004EA004E800308, 0x004EB004E900308, 0x004EC0042D00308, 0x004ED0044D00308, 0x004EE0042300304,
  0x004EF0044300304, 0x004F00042300308, 0x004F10044300308, 0x004F2004230030B, 0x004F3004430030B,
  0x004F40042700308, 0x004F50044700308, 0x004F80042B00308, 0x004F90044B00308, 0x006220062700653,
  0x006230062700654, 0x006240064800654, 0x006250062700655, 0x006260064A00654, 0x006C0006D500654,
  0x006C2006C100654, 0x006D3006D200654, 0x00929009280093C, 0x00931009300093C, 0x00934009330093C,
  0x00958009150093C, 0x00959009160093C, 0x0095A009170093C, 0x0095B0091C0093C, 0x0095C009210093C,
  0x0095D009220093C, 0x0095E0092B0093C, 0x0095F0092F0093C, 0x009CB009C7009BE, 0x009CC009C7009D7,
  0x009DC009A1009BC, 0x009DD009A2009BC, 0x009DF009AF009BC, 0x00A3300A3200A3C, 0x00A3600A3800A3C,
  0x00A5900A1600A3C, 0x00A5A00A1700A3C, 0x00A5B00A1C00A3C, 0x00A5E00A2B00A3C, 0x00B4800B4700B56,
  0x00B4B00B4700B3E, 0x00B4C00B4700B57, 0x00B5C00B2100B3C, 0x00B5D00B2200B3C, 0x00B9400B9200BD7,
  0x00BCA00BC600BBE, 0x00BCB00BC700BBE, 0x00BCC00BC600BD7, 0x00C4800C4600C56, 0x00CC000CBF00CD5,
  0x00CC700CC600CD5, 0x00CC800CC600CD6, 0x00CCA00CC600CC2, 0x00CCB00CCA00CD5, 0x00D4A00D4600D3E,
  0x00D4B00D4700D3E, 0x00D4C00D4600D57, 0x00DDA00DD900DCA, 0x00DDC00DD900DCF, 0x00DDD00DDC00DCA,
  0x00DDE00DD900DDF, 0x00F4300F4200FB7, 0x00F4D00F4C00FB7, 0x00F5200F5100FB7, 0x00F5700F5600FB7,
  0x00F5C00F5B00FB7, 0x00F6900F4000FB5, 0x00F7300F7100F72, 0x00F7500F7100F74, 0x00F7600FB200F80,
  0x00F7800FB300F80, 0x00F8100F7100F80, 0x00F9300F9200FB7, 0x00F9D00F9C00FB7, 0x00FA200FA100FB7,
  0x00FA700FA600FB7, 0x00FAC00FAB00FB7, 0x00FB900F9000FB5, 0x01026010250102E, 0x01B0601B0501B35,
  0x01B0801B0701B35, 0x01B0A01B0901B35, 0x01B0C01B0B01B35, 0x01B0E01B0D01B35, 0x01B1201B1101B35,
  0x01B3B01B3A01B35, 0x01B3D01B3C01B35, 0x01B4001B3E01B35, 0x01B4101B3F01B35, 0x01B4301B4201B35,
  0x01E000004100325, 0x01E010006100325, 0x01E020004200307, 0x01E030006200307, 0x01E040004200323,
  0x01E050006200323, 0x01E060004200331, 0x01E070006200331, 0x01E08000C700301, 0x01E09000E700301,
  0x01E0A0004400307, 0x01E0B0006400307, 0x01E0C0004400323, 0x01E0D0006400323, 0x01E0E0004400331,
  0x01E0F0006400331, 0x01E100004400327, 0x01E110006400327, 0x01E12000440032D, 0x01E13000640032D,
  0x01E140011200300, 0x01E150011300300, 0x01E160011200301, 0x01E170011300301, 0x01E18000450032D,
  0x01E19000650032D, 0x01E1A0004500330, 0x01E1B0006500330, 0x01E1C0022800306, 0x01E1D0022900306,
  0x01E1E0004600307, 0x01E1F0006600307, 0x01E200004700304, 0x01E210006700304, 0x01E220004800307,
  0x01E230006800307, 0x01E240004800323, 0x01E250006800323, 0x01E260004800308, 0x01E270006800308,
  0x01E280004800327, 0x01E290006800327, 0x01E2A000480032E, 0x01E2B000680032E, 0x01E2C0004900330,
  0x01E2D0006900330, 0x01E2E000CF00301, 0x01E2F000EF00301, 0x01E300004B00301, 0x01E310006B00301,
  0x01E320004B00323, 0x01E330006B00323, 0x01E340004B00331, 0x01E350006B00331, 0x01E360004C00323,
  0x01E370006C00323, 0x01E3801E3600304, 0x01E3901E3700304, 0x01E3A0004C00331, 0x01E3B0006C00331,
  0x01E3C0004C0032D, 0x01E3D0006C0032D, 0x01E3E0004D00301, 0x01E3F0006D00301, 0x01E400004D00307,
  0x01E410006D00307, 0x01E420004D00323, 0x01E430006D00323, 0x01E440004E00307, 0x01E450006E00307,
  0x01E460004E00323, 0x01E470006E00323, 0x01E480004E00331, 0x01E490006E00331, 0x01E4A0004E0032D,
  0x01E4B0006E0032D, 0x01E4C000D500301, 0x01E4D000F500301, 0x01E4E000D500308, 0x01E4F000F500308,
  0x01E500014C00300, 0x01E510014D00300, 0x01E520014C00301, 0x01E530014D00301, 0x01E540005000301,
  0x01E550007000301, 0x01E560005000307, 0x01E570007000307, 0x01E580005200307, 0x01E590007200307,
  0x01E5A0005200323, 0x01E5B0007200323, 0x01E5C01E5A00304, 0x01E5D01E5B00304, 0x01E5E0005200331,
  0x01E5F0007200331, 0x01E600005300307, 0x01E610007300307, 0x01E620005300323, 0x01E630007300323,
  0x01E640015A00307, 0x01E650015B00307, 0x01E660016000307, 0x01E670016100307, 0x01E6801E6200307,
  0x01E6901E6300307, 0x01E6A0005400307, 0x01E6B0007400307, 0x01E6C0005400323, 0x01E6D0007400323,
  0x01E6E0005400331, 0x01E6F0007400331, 0x01E70000540032D, 0x01E71000740032D, 0x01E720005500324,
  0x01E730007500324, 0x01E740005500330, 0x01E750007500330, 0x01E76000550032D, 0x01E77000750032D,
  0x01E780016800301, 0x01E790016900301, 0x01E7A0016A00308, 0x01E7B0016B00308, 0x01E7C0005600303,
  0x01E7D0007600303, 0x01E7E0005600323, 0x01E7F0007600323, 0x01E800005700300, 0x01E810007700300,
  0x01E820005700301, 0x01E830007700301, 0x01E840005700308, 0x01E850007700308, 0x01E860005700307,
  0x01E870007700307, 0x01E880005700323, 0x01E890007700323, 0x01E8A0005800307, 0x01E8B0007800307,
  0x01E8C0005800308, 0x01E8D0007800308, 0x01E8E0005900307, 0x01E8F0007900307, 0x01E900005A00302,
  0x01E910007A00302, 0x01E920005A00323, 0x01E930007A00323, 0x01E940005A00331, 0x01E950007A00331,
  0x01E960006800331, 0x01E970007400308, 0x01E98000770030A, 0x01E99000790030A, 0x01E9B0017F00307,
  0x01EA00004100323, 0x01EA10006100323, 0x01EA20004100309, 0x01EA30006100309, 0x01EA4000C200301,
  0x01EA5000E200301, 0x01EA6000C200300, 0x01EA7000E200300, 0x01EA8000C200309, 0x01EA9000E200309,
  0x01EAA000C200303, 0x01EAB000E200303, 0x01EAC01EA000302, 0x01EAD01EA100302, 0x01EAE0010200301,
  0x01EAF0010300301, 0x01EB00010200300, 0x01EB10010300300, 0x01EB20010200309, 0x01EB30010300309,
  0x01EB40010200303, 0x01EB50010300303, 0x01EB601EA000306, 0x01EB701EA100306, 0x01EB80004500323,
  0x01EB90006500323, 0x01EBA0004500309, 0x01EBB0006500309, 0x01EBC0004500303, 0x01EBD0006500303,
  0x01EBE000CA00301, 0x01EBF000EA00301, 0x01EC0000CA00300, 0x01EC1000EA00300, 0x01EC2000CA00309,
  0x01EC3000EA00309, 0x01EC4000CA00303, 0x01EC5000EA00303, 0x01EC601EB800302, 0x01EC701EB900302,
  0x01EC80004900309, 0x01EC90006900309, 0x01ECA0004900323, 0x01ECB0006900323, 0x01ECC0004F00323,
  0x01ECD0006F00323, 0x01ECE0004F00309, 0x01ECF0006F00309, 0x01ED0000D400301, 0x01ED1000F400301,
  0x01ED2000D400300, 0x01ED3000F400300, 0x01ED4000D400309, 0x01ED5000F400309, 0x01ED6000D400303,
  0x01ED7000F400303, 0x01ED801ECC00302, 0x01ED901ECD00302, 0x01EDA001A000301, 0x01EDB001A100301,
  0x01EDC001A000300, 0x01EDD001A100300, 0x01EDE001A000309, 0x01EDF001A100309, 0x01EE0001A000303,
  0x01EE1001A100303, 0x01EE2001A000323, 0x01EE3001A100323, 0x01EE40005500323, 0x01EE50007500323,
  0x01EE60005500309, 0x01EE70007500309, 0x01EE8001AF00301, 0x01EE9001B000301, 0x01EEA001AF00300,
  0x01EEB001B000300, 0x01EEC001AF00309, 0x01EED001B000309, 0x01EEE001AF00303, 0x01EEF001B000303,
  0x01EF0001AF00323, 0x01EF1001B000323, 0x01EF20005900300, 0x01EF30007900300, 0x01EF40005900323,
  0x01EF50007900323, 0x01EF60005900309, 0x01EF70007900309, 0x01EF80005900303, 0x01EF90007900303,
  0x01F00003B100313, 0x01F01003B100314, 0x01F0201F0000300, 0x01F0301F0100300, 0x01F0401F0000301,
  0x01F0501F0100301, 0x01F0601F0000342, 0x01F0701F0100342, 0x01F080039100313, 0x01F090039100314,
  0x01F0A01F0800300, 0x01F0B01F0900300, 0x01F0C01F0800301, 0x01F0D01F0900301, 0x01F0E01F0800342,
  0x01F0F01F0900342, 0x01F10003B500313, 0x01F11003B500314, 0x01F1201F1000300, 0x01F1301F1100300,
  0x01F1401F1000301, 0x01F1501F1100301, 0x01F180039500313, 0x01F190039500314, 0x01F1A01F1800300,
  0x01F1B01F1900300, 0x01F1C01F1800301, 0x01F1D01F1900301, 0x01F20003B700313, 0x01F21003B700314,
  0x01F2201F2000300, 0x01F2301F2100300, 0x01F2401F2000301, 0x01F2501F2100301, 0x01F2601F2000342,
  0x01F2701F2100342, 0x01F280039700313, 0x01F290039700314, 0x01F2A01F2800300, 0x01F2B01F2900300,
  0x01F2C01F2800301, 0x01F2D01F2900301, 0x01F2E01F2800342, 0x01F2F01F2900342, 0x01F30003B900313,
  0x01F31003B900314, 0x01F3201F3000300, 0x01F3301F3100300, 0x01F3401F3000301, 0x01F3501F3100301,
  0x01F3601F3000342, 0x01F3701F3100342, 0x01F380039900313, 0x01F390039900314, 0x01F3A01F3800300,
  0x01F3B01F3900300, 0x01F3C01F3800301, 0x01F3D01F3900301, 0x01F3E01F3800342, 0x01F3F01F3900342,
  0x01F40003BF00313, 0x01F41003BF00314, 0x01F4201F4000300, 0x01F4301F4100300, 0x01F4401F4000301,
  0x01F4501F4100301, 0x01F480039F00313, 0x01F490039F00314, 0x01F4A01F4800300, 0x01F4B01F4900300,
  0x01F4C01F4800301, 0x01F4D01F4900301, 0x01F50003C500313, 0x01F51003C500314, 0x01F5201F5000300,
  0x01F5301F5100300, 0x01F5401F5000301, 0x01F5501F5100301, 0x01F5601F5000342, 0x01F5701F5100342,
  0x01F59003A500314, 0x01F5B01F5900300, 0x01F5D01F5900301, 0x01F5F01F5900342, 0x01F60003C900313,
  0x01F61003C900314, 0x01F6201F6000300, 0x01F6301F6100300, 0x01F6401F6000301, 0x01F6501F6100301,
  0x01F6601F6000342, 0x01F6701F6100342, 0x01F68003A900313, 0x01F69003A900314, 0x01F6A01F6800300,
  0x01F6B01F6900300, 0x01F6C01F6800301, 0x01F6D01F6900301, 0x01F6E01F6800342, 0x01F6F01F6900342,
  0x01F70003B100300, 0x01F71003AC00000, 0x01F72003B500300, 0x01F73003AD00000, 0x01F74003B700300,
  0x01F75003AE00000, 0x01F76003B900300, 0x01F77003AF00000, 0x01F78003BF00300, 0x01F79003CC00000,
  0x01F7A003C500300, 0x01F7B003CD00000, 0x01F7C003C900300, 0x01F7D003CE00000, 0x01F8001F0000345,
  0x01F8101F0100345, 0x01F8201F0200345, 0x01F8301F0300345, 0x01F8401F0400345, 0x01F8501F0500345,
  0x01F8601F0600345, 0x01F8701F0700345, 0x01F8801F0800345, 0x01F8901F0900345, 0x01F8A01F0A00345,
  0x01F8B01F0B00345, 0x01F8C01F0C00345, 0x01F8D01F0D00345, 0x01F8E01F0E00345, 0x01F8F01F0F00345,
  0x01F9001F2000345, 0x01F9101F2100345, 0x01F9201F2200345, 0x01F9301F2300345, 0x01F9401F2400345,
  0x01F9501F2500345, 0x01F9601F2600345, 0x01F9701F2700345, 0x01F9801F2800345, 0x01F9901F2900345,
  0x01F9A01F2A00345, 0x01F9B01F2B00345, 0x01F9C01F2C00345, 0x01F9D01F2D00345, 0x01F9E01F2E00345,
  0x01F9F01F2F00345, 0x01FA001F6000345, 0x01FA101F6100345, 0x01FA201F6200345, 0x01FA301F6300345,
  0x01FA401F6400345, 0x01FA501F6500345, 0x01FA601F6600345, 0x01FA701F6700345, 0x01FA801F6800345,
  0x01FA901F6900345, 0x01FAA01F6A00345, 0x01FAB01F6B00345, 0x01FAC01F6C00345, 0x01FAD01F6D00345,
  0x01FAE01F6E00345, 0x01FAF01F6F00345, 0x01FB0003B100306, 0x01FB1003B100304, 0x01FB201F7000345,
  0x01FB3003B100345, 0x01FB4003AC00345, 0x01FB6003B100342, 0x01FB701FB600345, 0x01FB80039100306,
  0x01FB90039100304, 0x01FBA0039100300, 0x01FBB0038600000, 0x01FBC0039100345, 0x01FBE003B900000,
  0x01FC1000A800342, 0x01FC201F7400345, 0x01FC3003B700345, 0x01FC4003AE00345, 0x01FC6003B700342,
  0x01FC701FC600345, 0x01FC80039500300, 0x01FC90038800000, 0x01FCA0039700300, 0x01FCB0038900000,
  0x01FCC0039700345, 0x01FCD01FBF00300, 0x01FCE01FBF00301, 0x01FCF01FBF00342, 0x01FD0003B900306,
  0x01FD1003B900304, 0x01FD2003CA00300, 0x01FD30039000000, 0x01FD6003B900342, 0x01FD7003CA00342,
  0x01FD80039900306, 0x01FD90039900304, 0x01FDA0039900300, 0x01FDB0038A00000, 0x01FDD01FFE00300,
  0x01FDE01FFE00301, 0x01FDF01FFE00342, 0x01FE0003C500306, 0x01FE1003C500304, 0x01FE2003CB00300,
  0x01FE3003B000000, 0x01FE4003C100313, 0x01FE5003C100314, 0x01FE6003C500342, 0x01FE7003CB00342,
  0x01FE8003A500306, 0x01FE9003A500304, 0x01FEA003A500300, 0x01FEB0038E00000, 0x01FEC003A100314,
  0x01FED000A800300, 0x01FEE0038500000, 0x01FEF0006000000, 0x01FF201F7C00345, 0x01FF3003C900345,
  0x01FF4003CE00345, 0x01FF6003C900342, 0x01FF701FF600345, 0x01FF80039F00300, 0x01FF90038C00000,
  0x01FFA003A900300, 0x01FFB0038F00000, 0x01FFC003A900345, 0x01FFD000B400000, 0x020000200200000,
  0x020010200300000, 0x02126003A900000, 0x0212A0004B00000, 0x0212B000C500000, 0x0219A0219000338,
  0x0219B0219200338, 0x021AE0219400338, 0x021CD021D000338, 0x021CE021D400338, 0x021CF021D200338,
  0x022040220300338, 0x022090220800338, 0x0220C0220B00338, 0x022240222300338, 0x022260222500338,
  0x022410223C00338, 0x022440224300338, 0x022470224500338, 0x022490224800338, 0x022600003D00338,
  0x022620226100338, 0x0226D0224D00338, 0x0226E0003C00338, 0x0226F0003E00338, 0x022700226400338,
  0x022710226500338, 0x022740227200338, 0x022750227300338, 0x022780227600338, 0x022790227700338,
  0x022800227A00338, 0x022810227B00338, 0x022840228200338, 0x022850228300338, 0x022880228600338,
  0x022890228700338, 0x022AC022A200338, 0x022AD022A800338, 0x022AE022A900338, 0x022AF022AB00338,
  0x022E00227C00338, 0x022E10227D00338, 0x022E20229100338, 0x022E30229200338, 0x022EA022B200338,
  0x022EB022B300338, 0x022EC022B400338, 0x022ED022B500338, 0x023290300800000, 0x0232A0300900000,
  0x02ADC02ADD00338, 0x0304C0304B03099, 0x0304E0304D03099, 0x030500304F03099, 0x030520305103099,
  0x030540305303099, 0x030560305503099, 0x030580305703099, 0x0305A0305903099, 0x0305C0305B03099,
  0x0305E0305D03099, 0x030600305F03099, 0x030620306103099, 0x030650306403099, 0x030670306603099,
  0x030690306803099, 0x030700306F03099, 0x030710306F0309A, 0x030730307203099, 0x03074030720309A,
  0x030760307503099, 0x03077030750309A, 0x030790307803099, 0x0307A030780309A, 0x0307C0307B03099,
  0x0307D0307B0309A, 0x030940304603099, 0x0309E0309D03099, 0x030AC030AB03099, 0x030AE030AD03099,
  0x030B0030AF03099, 0x030B2030B103099, 0x030B4030B303099, 0x030B6030B503099, 0x030B8030B703099,
  0x030BA030B903099, 0x030BC030BB03099, 0x030BE030BD03099, 0x030C0030BF03099, 0x030C2030C103099,
  0x030C5030C403099, 0x030C7030C603099, 0x030C9030C803099, 0x030D0030CF03099, 0x030D1030CF0309A,
  0x030D3030D203099, 0x030D4030D20309A, 0x030D6030D503099, 0x030D7030D50309A, 0x030D9030D803099,
  0x030DA030D80309A, 0x030DC030DB03099, 0x030DD030DB0309A, 0x030F4030A603099, 0x030F7030EF03099,
  0x030F8030F003099, 0x030F9030F103099, 0x030FA030F203099, 0x030FE030FD03099, 0x0F90008C4800000,
  0x0F901066F400000, 0x0F90208ECA00000, 0x0F90308CC800000, 0x0F90406ED100000, 0x0F90504E3200000,
  0x0F906053E500000, 0x0F90709F9C00000, 0x0F90809F9C00000, 0x0F9090595100000, 0x0F90A091D100000,
  0x0F90B0558700000, 0x0F90C0594800000, 0x0F90D061F600000, 0x0F90E0766900000, 0x0F90F07F8500000,
  0x0F9100863F00000, 0x0F911087BA00000, 0x0F912088F800000, 0x0F9130908F00000, 0x0F91406A0200000,
  0x0F91506D1B00000, 0x0F916070D900000, 0x0F917073DE00000, 0x0F9180843D00000, 0x0F9190916A00000,
  0x0F91A099F100000, 0x0F91B04E8200000, 0x0F91C0537500000, 0x0F91D06B0400000, 0x0F91E0721B00000,
  0x0F91F0862D00000, 0x0F92009E1E00000, 0x0F92105D5000000, 0x0F92206FEB00000, 0x0F923085CD00000,
  0x0F9240896400000, 0x0F925062C900000, 0x0F926081D800000, 0x0F9270881F00000, 0x0F92805ECA00000,
  0x0F9290671700000, 0x0F92A06D6A00000, 0x0F92B072FC00000, 0x0F92C090CE00000, 0x0F92D04F8600000,
  0x0F92E051B700000, 0x0F92F052DE00000, 0x0F930064C400000, 0x0F93106AD300000, 0x0F9320721000000,
  0x0F933076E700000, 0x0F9340800100000, 0x0F9350860600000, 0x0F9360865C00000, 0x0F93708DEF00000,
  0x0F9380973200000, 0x0F93909B6F00000, 0x0F93A09DFA00000, 0x0F93B0788C00000, 0x0F93C0797F00000,
  0x0F93D07DA000000, 0x0F93E083C900000, 0x0F93F0930400000, 0x0F94009E7F00000, 0x0F94108AD600000,
  0x0F942058DF00000, 0x0F94305F0400000, 0x0F94407C6000000, 0x0F9450807E00000, 0x0F9460726200000,
  0x0F947078CA00000, 0x0F94808CC200000, 0x0F949096F700000, 0x0F94A058D800000, 0x0F94B05C6200000,
  0x0F94C06A1300000, 0x0F94D06DDA00000, 0x0F94E06F0F00000, 0x0F94F07D2F00000, 0x0F95007E3700000,
  0x0F9510964B00000, 0x0F952052D200000, 0x0F9530808B00000, 0x0F954051DC00000, 0x0F955051CC00000,
  0x0F95607A1C00000, 0x0F95707DBE00000, 0x0F958083F100000, 0x0F9590967500000, 0x0F95A08B8000000,
  0x0F95B062CF00000, 0x0F95C06A0200000, 0x0F95D08AFE00000, 0x0F95E04E3900000, 0x0F95F05BE700000,
  0x0F9600601200000, 0x0F9610738700000, 0x0F9620757000000, 0x0F9630531700000, 0x0F964078FB00000,
  0x0F96504FBF00000, 0x0F96605FA900000, 0x0F96704E0D00000, 0x0F96806CCC00000, 0x0F9690657800000,
  0x0F96A07D2200000, 0x0F96B053C300000, 0x0F96C0585E00000, 0x0F96D0770100000, 0x0F96E0844900000,
  0x0F96F08AAA00000, 0x0F97006BBA00000, 0x0F97108FB000000, 0x0F97206C8800000, 0x0F973062FE00000,
  0x0F974082E500000, 0x0F975063A000000, 0x0F9760756500000, 0x0F97704EAE00000, 0x0F9780516900000,
  0x0F979051C900000, 0x0F97A0688100000, 0x0F97B07CE700000, 0x0F97C0826F00000, 0x0F97D08AD200000,
  0x0F97E091CF00000, 0x0F97F052F500000, 0x0F9800544200000, 0x0F9810597300000, 0x0F98205EEC00000,
  0x0F983065C500000, 0x0F98406FFE00000, 0x0F9850792A00000, 0x0F986095AD00000, 0x0F98709A6A00000,
  0x0F98809E9700000, 0x0F98909ECE00000, 0x0F98A0529B00000, 0x0F98B066C600000, 0x0F98C06B7700000,
  0x0F98D08F6200000, 0x0F98E05E7400000, 0x0F98F0619000000, 0x0F9900620000000, 0x0F9910649A00000,
  0x0F99206F2300000, 0x0F9930714900000, 0x0F9940748900000, 0x0F995079CA00000, 0x0F99607DF400000,
  0x0F9970806F00000, 0x0F99808F2600000, 0x0F999084EE00000, 0x0F99A0902300000, 0x0F99B0934A00000,
  0x0F99C0521700000, 0x0F99D052A300000, 0x0F99E054BD00000, 0x0F99F070C800000, 0x0F9A0088C200000,
  0x0F9A108AAA00000, 0x0F9A205EC900000, 0x0F9A305FF500000, 0x0F9A40637B00000, 0x0F9A506BAE00000,
  0x0F9A607C3E00000, 0x0F9A70737500000, 0x0F9A804EE400000, 0x0F9A9056F900000, 0x0F9AA05BE700000,
  0x0F9AB05DBA00000, 0x0F9AC0601C00000, 0x0F9AD073B200000, 0x0F9AE0746900000, 0x0F9AF07F9A00000,
  0x0F9B00804600000, 0x0F9B10923400000, 0x0F9B2096F600000, 0x0F9B30974800000, 0x0F9B40981800000,
  0x0F9B504F8B00000, 0x0F9B6079AE00000, 0x0F9B7091B400000, 0x0F9B8096B800000, 0x0F9B9060E100000,
  0x0F9BA04E8600000, 0x0F9BB050DA00000, 0x0F9BC05BEE00000, 0x0F9BD05C3F00000, 0x0F9BE0659900000,
  0x0F9BF06A0200000, 0x0F9C0071CE00000, 0x0F9C10764200000, 0x0F9C2084FC00000, 0x0F9C30907C00000,
  0x0F9C409F8D00000, 0x0F9C50668800000, 0x0F9C60962E00000, 0x0F9C70528900000, 0x0F9C80677B00000,
  0x0F9C9067F300000, 0x0F9CA06D4100000, 0x0F9CB06E9C00000, 0x0F9CC0740900000, 0x0F9CD0755900000,
  0x0F9CE0786B00000, 0x0F9CF07D1000000, 0x0F9D00985E00000, 0x0F9D10516D00000, 0x0F9D20622E00000,
  0x0F9D30967800000, 0x0F9D40502B00000, 0x0F9D505D1900000, 0x0F9D606DEA00000, 0x0F9D708F2A00000,
  0x0F9D805F8B00000, 0x0F9D90614400000, 0x0F9DA0681700000, 0x0F9DB0738700000, 0x0F9DC0968600000,
  0x0F9DD0522900000, 0x0F9DE0540F00000, 0x0F9DF05C6500000, 0x0F9E00661300000, 0x0F9E10674E00000,
  0x0F9E2068A800000, 0x0F9E306CE500000, 0x0F9E40740600000, 0x0F9E5075E200000, 0x0F9E607F7900000,
  0x0F9E7088CF00000, 0x0F9E8088E100000, 0x0F9E9091CC00000, 0x0F9EA096E200000, 0x0F9EB0533F00000,
  0x0F9EC06EBA00000, 0x0F9ED0541D00000, 0x0F9EE071D000000, 0x0F9EF0749800000, 0x0F9F0085FA00000,
  0x0F9F1096A300000, 0x0F9F209C5700000, 0x0F9F309E9F00000, 0x0F9F40679700000, 0x0F9F506DCB00000,
  0x0F9F6081E800000, 0x0F9F707ACB00000, 0x0F9F807B2000000, 0x0F9F907C9200000, 0x0F9FA072C000000,
  0x0F9FB0709900000, 0x0F9FC08B5800000, 0x0F9FD04EC000000, 0x0F9FE0833600000, 0x0F9FF0523A00000,
  0x0FA000520700000, 0x0FA0105EA600000, 0x0FA02062D300000, 0x0FA0307CD600000, 0x0FA0405B8500000,
  0x0FA0506D1E00000, 0x0FA06066B400000, 0x0FA0708F3B00000, 0x0FA080884C00000, 0x0FA090964D00000,
  0x0FA0A0898B00000, 0x0FA0B05ED300000, 0x0FA0C0514000000, 0x0FA0D055C000000, 0x0FA100585A00000,
  0x0FA120667400000, 0x0FA15051DE00000, 0x0FA160732A00000, 0x0FA17076CA00000, 0x0FA180793C00000,
  0x0FA190795E00000, 0x0FA1A0796500000, 0x0FA1B0798F00000, 0x0FA1C0975600000, 0x0FA1D07CBE00000,
  0x0FA1E07FBD00000, 0x0FA200861200000, 0x0FA2208AF800000, 0x0FA250903800000, 0x0FA26090FD00000,
  0x0FA2A098EF00000, 0x0FA2B098FC00000, 0x0FA2C0992800000, 0x0FA2D09DB400000, 0x0FA2E090DE00000,
  0x0FA2F096B700000, 0x0FA3004FAE00000, 0x0FA31050E700000, 0x0FA320514D00000, 0x0FA33052C900000,
  0x0FA34052E400000, 0x0FA350535100000, 0x0FA360559D00000, 0x0FA370560600000, 0x0FA380566800000,
  0x0FA390584000000, 0x0FA3A058A800000, 0x0FA3B05C6400000, 0x0FA3C05C6E00000, 0x0FA3D0609400000,
  0x0FA3E0616800000, 0x0FA3F0618E00000, 0x0FA40061F200000, 0x0FA410654F00000, 0x0FA42065E200000,
  0x0FA430669100000, 0x0FA440688500000, 0x0FA4506D7700000, 0x0FA4606E1A00000, 0x0FA4706F2200000,
  0x0FA480716E00000, 0x0FA490722B00000, 0x0FA4A0742200000, 0x0FA4B0789100000, 0x0FA4C0793E00000,
  0x0FA4D0794900000, 0x0FA4E0794800000, 0x0FA4F0795000000, 0x0FA500795600000, 0x0FA510795D00000,
  0x0FA520798D00000, 0x0FA530798E00000, 0x0FA5407A4000000, 0x0FA5507A8100000, 0x0FA5607BC000000,
  0x0FA5707DF400000, 0x0FA5807E0900000, 0x0FA5907E4100000, 0x0FA5A07F7200000, 0x0FA5B0800500000,
  0x0FA5C081ED00000, 0x0FA5D0827900000, 0x0FA5E0827900000, 0x0FA5F0845700000, 0x0FA600891000000,
  0x0FA610899600000, 0x0FA6208B0100000, 0x0FA6308B3900000, 0x0FA6408CD300000, 0x0FA6508D0800000,
  0x0FA6608FB600000, 0x0FA670903800000, 0x0FA68096E300000, 0x0FA69097FF00000, 0x0FA6A0983B00000,
  0x0FA6B0607500000, 0x0FA6C242EE00000, 0x0FA6D0821800000, 0x0FA7004E2600000, 0x0FA71051B500000,
  0x0FA720516800000, 0x0FA7304F8000000, 0x0FA740514500000, 0x0FA750518000000, 0x0FA76052C700000,
  0x0FA77052FA00000, 0x0FA780559D00000, 0x0FA790555500000, 0x0FA7A0559900000, 0x0FA7B055E200000,
  0x0FA7C0585A00000, 0x0FA7D058B300000, 0x0FA7E0594400000, 0x0FA7F0595400000, 0x0FA8005A6200000,
  0x0FA8105B2800000, 0x0FA8205ED200000, 0x0FA8305ED900000, 0x0FA8405F6900000, 0x0FA8505FAD00000,
  0x0FA86060D800000, 0x0FA870614E00000, 0x0FA880610800000, 0x0FA890618E00000, 0x0FA8A0616000000,
  0x0FA8B061F200000, 0x0FA8C0623400000, 0x0FA8D063C400000, 0x0FA8E0641C00000, 0x0FA8F0645200000,
  0x0FA900655600000, 0x0FA910667400000, 0x0FA920671700000, 0x0FA930671B00000, 0x0FA940675600000,
  0x0FA9506B7900000, 0x0FA9606BBA00000, 0x0FA9706D4100000, 0x0FA9806EDB00000, 0x0FA9906ECB00000,
  0x0FA9A06F2200000, 0x0FA9B0701E00000, 0x0FA9C0716E00000, 0x0FA9D077A700000, 0x0FA9E0723500000,
  0x0FA9F072AF00000, 0x0FAA00732A00000, 0x0FAA10747100000, 0x0FAA20750600000, 0x0FAA30753B00000,
  0x0FAA40761D00000, 0x0FAA50761F00000, 0x0FAA6076CA00000, 0x0FAA7076DB00000, 0x0FAA8076F400000,
  0x0FAA90774A00000, 0x0FAAA0774000000, 0x0FAAB078CC00000, 0x0FAAC07AB100000, 0x0FAAD07BC000000,
  0x0FAAE07C7B00000, 0x0FAAF07D5B00000, 0x0FAB007DF400000, 0x0FAB107F3E00000, 0x0FAB20800500000,
  0x0FAB30835200000, 0x0FAB4083EF00000, 0x0FAB50877900000, 0x0FAB60894100000, 0x0FAB70898600000,
  0x0FAB80899600000, 0x0FAB908ABF00000, 0x0FABA08AF800000, 0x0FABB08ACB00000, 0x0FABC08B0100000,
  0x0FABD08AFE00000, 0x0FABE08AED00000, 0x0FABF08B3900000, 0x0FAC008B8A00000, 0x0FAC108D0800000,
  0x0FAC208F3800000, 0x0FAC30907200000, 0x0FAC40919900000, 0x0FAC50927600000, 0x0FAC60967C00000,
  0x0FAC7096E300000, 0x0FAC80975600000, 0x0FAC9097DB00000, 0x0FACA097FF00000, 0x0FACB0980B00000,
  0x0FACC0983B00000, 0x0FACD09B1200000, 0x0FACE09F9C00000, 0x0FACF2284A00000, 0x0FAD02284400000,
  0x0FAD1233D500000, 0x0FAD203B9D00000, 0x0FAD30401800000, 0x0FAD40403900000, 0x0FAD52524900000,
  0x0FAD625CD000000, 0x0FAD727ED300000, 0x0FAD809F4300000, 0x0FAD909F8E00000, 0x0FB1D005D9005B4,
  0x0FB1F005F2005B7, 0x0FB2A005E9005C1, 0x0FB2B005E9005C2, 0x0FB2C0FB49005C1, 0x0FB2D0FB49005C2,
  0x0FB2E005D0005B7, 0x0FB2F005D0005B8, 0x0FB30005D0005BC, 0x0FB31005D1005BC, 0x0FB32005D2005BC,
  0x0FB33005D3005BC, 0x0FB34005D4005BC, 0x0FB35005D5005BC, 0x0FB36005D6005BC, 0x0FB38005D8005BC,
  0x0FB39005D9005BC, 0x0FB3A005DA005BC, 0x0FB3B005DB005BC, 0x0FB3C005DC005BC, 0x0FB3E005DE005BC,
  0x0FB40005E0005BC, 0x0FB41005E1005BC, 0x0FB43005E3005BC, 0x0FB44005E4005BC, 0x0FB46005E6005BC,
  0x0FB47005E7005BC, 0x0FB48005E8005BC, 0x0FB49005E9005BC, 0x0FB4A005EA005BC, 0x0FB4B005D5005B9,
  0x0FB4C005D1005BF, 0x0FB4D005DB005BF, 0x0FB4E005E4005BF, 0x1109A11099110BA, 0x1109C1109B110BA,
  0x110AB110A5110BA, 0x1112E1113111127, 0x1112F1113211127, 0x1134B113471133E, 0x1134C1134711357,
  0x114BB114B9114BA, 0x114BC114B9114B0, 0x114BE114B9114BD, 0x115BA115B8115AF, 0x115BB115B9115AF,
  0x119381193511930, 0x1D15E1D1571D165, 0x1D15F1D1581D165, 0x1D1601D15F1D16E, 0x1D1611D15F1D16F,
  0x1D1621D15F1D170, 0x1D1631D15F1D171, 0x1D1641D15F1D172, 0x1D1BB1D1B91D165, 0x1D1BC1D1BA1D165,
  0x1D1BD1D1BB1D16E, 0x1D1BE1D1BC1D16E, 0x1D1BF1D1BB1D16F, 0x1D1C01D1BC1D16F, 0x2F80004E3D00000,
  0x2F80104E3800000, 0x2F80204E4100000, 0x2F8032012200000, 0x2F80404F6000000, 0x2F80504FAE00000,
  0x2F80604FBB00000, 0x2F8070500200000, 0x2F8080507A00000, 0x2F8090509900000, 0x2F80A050E700000,
  0x2F80B050CF00000, 0x2F80C0349E00000, 0x2F80D2063A00000, 0x2F80E0514D00000, 0x2F80F0515400000,
  0x2F8100516400000, 0x2F8110517700000, 0x2F8122051C00000, 0x2F813034B900000, 0x2F8140516700000,
  0x2F8150518D00000, 0x2F8162054B00000, 0x2F8170519700000, 0x2F818051A400000, 0x2F81904ECC00000,
  0x2F81A051AC00000, 0x2F81B051B500000, 0x2F81C291DF00000, 0x2F81D051F500000, 0x2F81E0520300000,
  0x2F81F034DF00000, 0x2F8200523B00000, 0x2F8210524600000, 0x2F8220527200000, 0x2F8230527700000,
  0x2F8240351500000, 0x2F825052C700000, 0x2F826052C900000, 0x2F827052E400000, 0x2F828052FA00000,
  0x2F8290530500000, 0x2F82A0530600000, 0x2F82B0531700000, 0x2F82C0534900000, 0x2F82D0535100000,
  0x2F82E0535A00000, 0x2F82F0537300000, 0x2F8300537D00000, 0x2F8310537F00000, 0x2F8320537F00000,
  0x2F8330537F00000, 0x2F83420A2C00000, 0x2F8350707000000, 0x2F836053CA00000, 0x2F837053DF00000,
  0x2F83820B6300000, 0x2F839053EB00000, 0x2F83A053F100000, 0x2F83B0540600000, 0x2F83C0549E00000,
  0x2F83D0543800000, 0x2F83E0544800000, 0x2F83F0546800000, 0x2F840054A200000, 0x2F841054F600000,
  0x2F8420551000000, 0x2F8430555300000, 0x2F8440556300000, 0x2F8450558400000, 0x2F8460558400000,
  0x2F8470559900000, 0x2F848055AB00000, 0x2F849055B300000, 0x2F84A055C200000, 0x2F84B0571600000,
  0x2F84C0560600000, 0x2F84D0571700000, 0x2F84E0565100000, 0x2F84F0567400000, 0x2F8500520700000,
  0x2F851058EE00000, 0x2F852057CE00000, 0x2F853057F400000, 0x2F8540580D00000, 0x2F8550578B00000,
  0x2F8560583200000, 0x2F8570583100000, 0x2F858058AC00000, 0x2F859214E400000, 0x2F85A058F200000,
  0x2F85B058F700000, 0x2F85C0590600000, 0x2F85D0591A00000, 0x2F85E0592200000, 0x2F85F0596200000,
  0x2F860216A800000, 0x2F861216EA00000, 0x2F862059EC00000, 0x2F86305A1B00000, 0x2F86405A2700000,
  0x2F865059D800000, 0x2F86605A6600000, 0x2F867036EE00000, 0x2F868036FC00000, 0x2F86905B0800000,
  0x2F86A05B3E00000, 0x2F86B05B3E00000, 0x2F86C219C800000, 0x2F86D05BC300000, 0x2F86E05BD800000,
  0x2F86F05BE700000, 0x2F87005BF300000, 0x2F87121B1800000, 0x2F87205BFF00000, 0x2F87305C0600000,
  0x2F87405F5300000, 0x2F87505C2200000, 0x2F8760378100000, 0x2F87705C6000000, 0x2F87805C6E00000,
  0x2F87905CC000000, 0x2F87A05C8D00000, 0x2F87B21DE400000, 0x2F87C05D4300000, 0x2F87D21DE600000,
  0x2F87E05D6E00000, 0x2F87F05D6B00000, 0x2F88005D7C00000, 0x2F88105DE100000, 0x2F88205DE200000,
  0x2F8830382F00000, 0x2F88405DFD00000, 0x2F88505E2800000, 0x2F88605E3D00000, 0x2F88705E6900000,
  0x2F8880386200000, 0x2F8892218300000, 0x2F88A0387C00000, 0x2F88B05EB000000, 0x2F88C05EB300000,
  0x2F88D05EB600000, 0x2F88E05ECA00000, 0x2F88F2A39200000, 0x2F89005EFE00000, 0x2F8912233100000,
  0x2F8922233100000, 0x2F8930820100000, 0x2F89405F2200000, 0x2F89505F2200000, 0x2F896038C700000,
  0x2F897232B800000, 0x2F898261DA00000, 0x2F89905F6200000, 0x2F89A05F6B00000, 0x2F89B038E300000,
  0x2F89C05F9A00000, 0x2F89D05FCD00000, 0x2F89E05FD700000, 0x2F89F05FF900000, 0x2F8A00608100000,
  0x2F8A10393A00000, 0x2F8A20391C00000, 0x2F8A30609400000, 0x2F8A4226D400000, 0x2F8A5060C700000,
  0x2F8A60614800000, 0x2F8A70614C00000, 0x2F8A80614E00000, 0x2F8A90614C00000, 0x2F8AA0617A00000,
  0x2F8AB0618E00000, 0x2F8AC061B200000, 0x2F8AD061A400000, 0x2F8AE061AF00000, 0x2F8AF061DE00000,
  0x2F8B0061F200000, 0x2F8B1061F600000, 0x2F8B20621000000, 0x2F8B30621B00000, 0x2F8B40625D00000,
  0x2F8B5062B100000, 0x2F8B6062D400000, 0x2F8B70635000000, 0x2F8B822B0C00000, 0x2F8B90633D00000,
  0x2F8BA062FC00000, 0x2F8BB0636800000, 0x2F8BC0638300000, 0x2F8BD063E400000, 0x2F8BE22BF100000,
  0x2F8BF0642200000, 0x2F8C0063C500000, 0x2F8C1063A900000, 0x2F8C203A2E00000, 0x2F8C30646900000,
  0x2F8C40647E00000, 0x2F8C50649D00000, 0x2F8C60647700000, 0x2F8C703A6C00000, 0x2F8C80654F00000,
  0x2F8C90656C00000, 0x2F8CA2300A00000, 0x2F8CB065E300000, 0x2F8CC066F800000, 0x2F8CD0664900000,
  0x2F8CE03B1900000, 0x2F8CF0669100000, 0x2F8D003B0800000, 0x2F8D103AE400000, 0x2F8D20519200000,
  0x2F8D30519500000, 0x2F8D40670000000, 0x2F8D50669C00000, 0x2F8D6080AD00000, 0x2F8D7043D900000,
  0x2F8D80671700000, 0x2F8D90671B00000, 0x2F8DA0672100000, 0x2F8DB0675E00000, 0x2F8DC0675300000,
  0x2F8DD233C300000, 0x2F8DE03B4900000, 0x2F8DF067FA00000, 0x2F8E00678500000, 0x2F8E10685200000,
  0x2F8E20688500000, 0x2F8E32346D00000, 0x2F8E40688E00000, 0x2F8E50681F00000, 0x2F8E60691400000,
  0x2F8E703B9D00000, 0x2F8E80694200000, 0x2F8E9069A300000, 0x2F8EA069EA00000, 0x2F8EB06AA800000,
  0x2F8EC236A300000, 0x2F8ED06ADB00000, 0x2F8EE03C1800000, 0x2F8EF06B2100000, 0x2F8F0238A700000,
  0x2F8F106B5400000, 0x2F8F203C4E00000, 0x2F8F306B7200000, 0x2F8F406B9F00000, 0x2F8F506BBA00000,
  0x2F8F606BBB00000, 0x2F8F723A8D00000, 0x2F8F821D0B00000, 0x2F8F923AFA00000, 0x2F8FA06C4E00000,
  0x2F8FB23CBC00000, 0x2F8FC06CBF00000, 0x2F8FD06CCD00000, 0x2F8FE06C6700000, 0x2F8FF06D1600000,
  0x2F90006D3E00000, 0x2F90106D7700000, 0x2F90206D4100000, 0x2F90306D6900000, 0x2F90406D7800000,
  0x2F90506D8500000, 0x2F90623D1E00000, 0x2F90706D3400000, 0x2F90806E2F00000, 0x2F90906E6E00000,
  0x2F90A03D3300000, 0x2F90B06ECB00000, 0x2F90C06EC700000, 0x2F90D23ED100000, 0x2F90E06DF900000,
  0x2F90F06F6E00000, 0x2F91023F5E00000, 0x2F91123F8E00000, 0x2F91206FC600000, 0x2F9130703900000,
  0x2F9140701E00000, 0x2F9150701B00000, 0x2F91603D9600000, 0x2F9170704A00000, 0x2F9180707D00000,
  0x2F9190707700000, 0x2F91A070AD00000, 0x2F91B2052500000, 0x2F91C0714500000, 0x2F91D2426300000,
  0x2F91E0719C00000, 0x2F91F243AB00000, 0x2F9200722800000, 0x2F9210723500000, 0x2F9220725000000,
  0x2F9232460800000, 0x2F9240728000000, 0x2F9250729500000, 0x2F9262473500000, 0x2F9272481400000,
  0x2F9280737A00000, 0x2F9290738B00000, 0x2F92A03EAC00000, 0x2F92B073A500000, 0x2F92C03EB800000,
  0x2F92D03EB800000, 0x2F92E0744700000, 0x2F92F0745C00000, 0x2F9300747100000, 0x2F9310748500000,
  0x2F932074CA00000, 0x2F93303F1B00000, 0x2F9340752400000, 0x2F93524C3600000, 0x2F9360753E00000,
  0x2F93724C9200000, 0x2F9380757000000, 0x2F9392219F00000, 0x2F93A0761000000, 0x2F93B24FA100000,
  0x2F93C24FB800000, 0x2F93D2504400000, 0x2F93E03FFC00000, 0x2F93F0400800000, 0x2F940076F400000,
  0x2F941250F300000, 0x2F942250F200000, 0x2F9432511900000, 0x2F9442513300000, 0x2F9450771E00000,
  0x2F9460771F00000, 0x2F9470771F00000, 0x2F9480774A00000, 0x2F9490403900000, 0x2F94A0778B00000,
  0x2F94B0404600000, 0x2F94C0409600000, 0x2F94D2541D00000, 0x2F94E0784E00000, 0x2F94F0788C00000,
  0x2F950078CC00000, 0x2F951040E300000, 0x2F9522562600000, 0x2F9530795600000, 0x2F9542569A00000,
  0x2F955256C500000, 0x2F9560798F00000, 0x2F957079EB00000, 0x2F9580412F00000, 0x2F95907A4000000,
  0x2F95A07A4A00000, 0x2F95B07A4F00000, 0x2F95C2597C00000, 0x2F95D25AA700000, 0x2F95E25AA700000,
  0x2F95F07AEE00000, 0x2F9600420200000, 0x2F96125BAB00000, 0x2F96207BC600000, 0x2F96307BC900000,
  0x2F9640422700000, 0x2F96525C8000000, 0x2F96607CD200000, 0x2F967042A000000, 0x2F96807CE800000,
  0x2F96907CE300000, 0x2F96A07D0000000, 0x2F96B25F8600000, 0x2F96C07D6300000, 0x2F96D0430100000,
  0x2F96E07DC700000, 0x2F96F07E0200000, 0x2F97007E4500000, 0x2F9710433400000, 0x2F9722622800000,
  0x2F9732624700000, 0x2F9740435900000, 0x2F975262D900000, 0x2F97607F7A00000, 0x2F9772633E00000,
  0x2F97807F9500000, 0x2F97907FFA00000, 0x2F97A0800500000, 0x2F97B264DA00000, 0x2F97C2652300000,
  0x2F97D0806000000, 0x2F97E265A800000, 0x2F97F0807000000, 0x2F9802335F00000, 0x2F981043D500000,
  0x2F982080B200000, 0x2F9830810300000, 0x2F9840440B00000, 0x2F9850813E00000, 0x2F98605AB500000,
  0x2F987267A700000, 0x2F988267B500000, 0x2F9892339300000, 0x2F98A2339C00000, 0x2F98B0820100000,
  0x2F98C0820400000, 0x2F98D08F9E00000, 0x2F98E0446B00000, 0x2F98F0829100000, 0x2F9900828B00000,
  0x2F9910829D00000, 0x2F992052B300000, 0x2F993082B100000, 0x2F994082B300000, 0x2F995082BD00000,
  0x2F996082E600000, 0x2F99726B3C00000, 0x2F998082E500000, 0x2F9990831D00000, 0x2F99A0836300000,
  0x2F99B083AD00000, 0x2F99C0832300000, 0x2F99D083BD00000, 0x2F99E083E700000, 0x2F99F0845700000,
  0x2F9A00835300000, 0x2F9A1083CA00000, 0x2F9A2083CC00000, 0x2F9A3083DC00000, 0x2F9A426C3600000,
  0x2F9A526D6B00000, 0x2F9A626CD500000, 0x2F9A70452B00000, 0x2F9A8084F100000, 0x2F9A9084F300000,
  0x2F9AA0851600000, 0x2F9AB273CA00000, 0x2F9AC0856400000, 0x2F9AD26F2C00000, 0x2F9AE0455D00000,
  0x2F9AF0456100000, 0x2F9B026FB100000, 0x2F9B1270D200000, 0x2F9B20456B00000, 0x2F9B30865000000,
  0x2F9B40865C00000, 0x2F9B50866700000, 0x2F9B60866900000, 0x2F9B7086A900000, 0x2F9B80868800000,
  0x2F9B90870E00000, 0x2F9BA086E200000, 0x2F9BB0877900000, 0x2F9BC0872800000, 0x2F9BD0876B00000,
  0x2F9BE0878600000, 0x2F9BF045D700000, 0x2F9C0087E100000, 0x2F9C10880100000, 0x2F9C2045F900000,
  0x2F9C30886000000, 0x2F9C40886300000, 0x2F9C52766700000, 0x2F9C6088D700000, 0x2F9C7088DE00000,
  0x2F9C80463500000, 0x2F9C9088FA00000, 0x2F9CA034BB00000, 0x2F9CB278AE00000, 0x2F9CC2796600000,
  0x2F9CD046BE00000, 0x2F9CE046C700000, 0x2F9CF08AA000000, 0x2F9D008AED00000, 0x2F9D108B8A00000,
  0x2F9D208C5500000, 0x2F9D327CA800000, 0x2F9D408CAB00000, 0x2F9D508CC100000, 0x2F9D608D1B00000,
  0x2F9D708D7700000, 0x2F9D827F2F00000, 0x2F9D92080400000, 0x2F9DA08DCB00000, 0x2F9DB08DBC00000,
  0x2F9DC08DF000000, 0x2F9DD208DE00000, 0x2F9DE08ED400000, 0x2F9DF08F3800000, 0x2F9E0285D200000,
  0x2F9E1285ED00000, 0x2F9E20909400000, 0x2F9E3090F100000, 0x2F9E40911100000, 0x2F9E52872E00000,
  0x2F9E60911B00000, 0x2F9E70923800000, 0x2F9E8092D700000, 0x2F9E9092D800000, 0x2F9EA0927C00000,
  0x2F9EB093F900000, 0x2F9EC0941500000, 0x2F9ED28BFA00000, 0x2F9EE0958B00000, 0x2F9EF0499500000,
  0x2F9F0095B700000, 0x2F9F128D7700000, 0x2F9F2049E600000, 0x2F9F3096C300000, 0x2F9F405DB200000,
  0x2F9F50972300000, 0x2F9F62914500000, 0x2F9F72921A00000, 0x2F9F804A6E00000, 0x2F9F904A7600000,
  0x2F9FA097E000000, 0x2F9FB2940A00000, 0x2F9FC04AB200000, 0x2F9FD2949600000, 0x2F9FE0980B00000,
  0x2F9FF0980B00000, 0x2FA000982900000, 0x2FA01295B600000, 0x2FA02098E200000, 0x2FA0304B3300000,
  0x2FA040992900000, 0x2FA05099A700000, 0x2FA06099C200000, 0x2FA07099FE00000, 0x2FA0804BCE00000,
  0x2FA0929B3000000, 0x2FA0A09B1200000, 0x2FA0B09C4000000, 0x2FA0C09CFD00000, 0x2FA0D04CCE00000,
  0x2FA0E04CED00000, 0x2FA0F09D6700000, 0x2FA102A0CE00000, 0x2FA1104CF800000, 0x2FA122A10500000,
  0x2FA132A20E00000, 0x2FA142A29100000, 0x2FA1509EBB00000, 0x2FA1604D5600000, 0x2FA1709EF900000,
  0x2FA1809EFE00000, 0x2FA1909F0500000, 0x2FA1A09F0F00000, 0x2FA1B09F1600000, 0x2FA1C09F3B00000,
  0x2FA1D2A60000000]

def composites : Array Nat := #[
  0x0003C003380226E, 0x0003D0033802260, 0x0003E003380226F, 0x0004100300000C0, 0x0004100301000C1,
  0x0004100302000C2, 0x0004100303000C3, 0x000410030400100, 0x000410030600102, 0x000410030700226,
  0x0004100308000C4, 0x000410030901EA2, 0x000410030A000C5, 0x000410030C001CD, 0x000410030F00200,
  0x000410031100202, 0x000410032301EA0, 0x000410032501E00, 0x000410032800104, 0x000420030701E02,
  0x000420032301E04, 0x000420033101E06, 0x000430030100106, 0x000430030200108, 0x00043003070010A,
  0x000430030C0010C, 0x0004300327000C7, 0x000440030701E0A, 0x000440030C0010E, 0x000440032301E0C,
  0x000440032701E10, 0x000440032D01E12, 0x000440033101E0E, 0x0004500300000C8, 0x0004500301000C9,
  0x0004500302000CA, 0x000450030301EBC, 0x000450030400112, 0x000450030600114, 0x000450030700116,
  0x0004500308000CB, 0x000450030901EBA, 0x000450030C0011A, 0x000450030F00204, 0x000450031100206,
  0x000450032301EB8, 0x000450032700228, 0x000450032800118, 0x000450032D01E18, 0x000450033001E1A,
  0x000460030701E1E, 0x0004700301001F4, 0x00047003020011C, 0x000470030401E20, 0x00047003060011E,
  0x000470030700120, 0x000470030C001E6, 0x000470032700122, 0x000480030200124, 0x000480030701E22,
  0x000480030801E26, 0x000480030C0021E, 0x000480032301E24, 0x000480032701E28, 0x000480032E01E2A,
  0x0004900300000CC, 0x0004900301000CD, 0x0004900302000CE, 0x000490030300128, 0x00049003040012A,
  0x00049003060012C, 0x000490030700130, 0x0004900308000CF, 0x000490030901EC8, 0x000490030C001CF,
  0x000490030F00208, 0x00049003110020A, 0x000490032301ECA, 0x00049003280012E, 0x000490033001E2C,
  0x0004A0030200134, 0x0004B0030101E30, 0x0004B0030C001E8, 0x0004B0032301E32, 0x0004B0032700136,
  0x0004B0033101E34, 0x0004C0030100139, 0x0004C0030C0013D, 0x0004C0032301E36, 0x0004C003270013B,
  0x0004C0032D01E3C, 0x0004C0033101E3A, 0x0004D0030101E3E, 0x0004D0030701E40, 0x0004D0032301E42,
  0x0004E00300001F8, 0x0004E0030100143, 0x0004E00303000D1, 0x0004E0030701E44, 0x0004E0030C00147,
  0x0004E0032301E46, 0x0004E0032700145, 0x0004E0032D01E4A, 0x0004E0033101E48, 0x0004F00300000D2,
  0x0004F00301000D3, 0x0004F00302000D4, 0x0004F00303000D5, 0x0004F003040014C, 0x0004F003060014E,
  0x0004F003070022E, 0x0004F00308000D6, 0x0004F0030901ECE, 0x0004F0030B00150, 0x0004F0030C001D1,
  0x0004F0030F0020C, 0x0004F003110020E, 0x0004F0031B001A0, 0x0004F0032301ECC, 0x0004F00328001EA,
  0x000500030101E54, 0x000500030701E56, 0x000520030100154, 0x000520030701E58, 0x000520030C00158,
  0x000520030F00210, 0x000520031100212, 0x000520032301E5A, 0x000520032700156, 0x000520033101E5E,
  0x00053003010015A, 0x00053003020015C, 0x000530030701E60, 0x000530030C00160, 0x000530032301E62,
  0x000530032600218, 0x00053003270015E, 0x000540030701E6A, 0x000540030C00164, 0x000540032301E6C,
  0x00054003260021A, 0x000540032700162, 0x000540032D01E70, 0x000540033101E6E, 0x0005500300000D9,
  0x0005500301000DA, 0x0005500302000DB, 0x000550030300168, 0x00055003040016A, 0x00055003060016C,
  0x0005500308000DC, 0x000550030901EE6, 0x000550030A0016E, 0x000550030B00170, 0x000550030C001D3,
  0x000550030F00214, 0x000550031100216, 0x000550031B001AF, 0x000550032301EE4, 0x000550032401E72,
  0x000550032800172, 0x000550032D01E76, 0x000550033001E74, 0x000560030301E7C, 0x000560032301E7E,
  0x000570030001E80, 0x000570030101E82, 0x000570030200174, 0x000570030701E86, 0x000570030801E84,
  0x000570032301E88, 0x000580030701E8A, 0x000580030801E8C, 0x000590030001EF2, 0x0005900301000DD,
  0x000590030200176, 0x000590030301EF8, 0x000590030400232, 0x000590030701E8E, 0x000590030800178,
  0x000590030901EF6, 0x000590032301EF4, 0x0005A0030100179, 0x0005A0030201E90, 0x0005A003070017B,
  0x0005A0030C0017D, 0x0005A0032301E92, 0x0005A0033101E94, 0x0006100300000E0, 0x0006100301000E1,
  0x0006100302000E2, 0x0006100303000E3, 0x000610030400101, 0x000610030600103, 0x000610030700227,
  0x0006100308000E4, 0x000610030901EA3, 0x000610030A000E5, 0x000610030C001CE, 0x000610030F00201,
  0x000610031100203, 0x000610032301EA1, 0x000610032501E01, 0x000610032800105, 0x000620030701E03,
  0x000620032301E05, 0x000620033101E07, 0x000630030100107, 0x000630030200109, 0x00063003070010B,
  0x000630030C0010D, 0x0006300327000E7, 0x000640030701E0B, 0x000640030C0010F, 0x000640032301E0D,
  0x000640032701E11, 0x000640032D01E13, 0x000640033101E0F, 0x0006500300000E8, 0x0006500301000E9,
  0x0006500302000EA, 0x000650030301EBD, 0x000650030400113, 0x000650030600115, 0x000650030700117,
  0x0006500308000EB, 0x000650030901EBB, 0x000650030C0011B, 0x000650030F00205, 0x000650031100207,
  0x000650032301EB9, 0x000650032700229, 0x000650032800119, 0x000650032D01E19, 0x000650033001E1B,
  0x000660030701E1F, 0x0006700301001F5, 0x00067003020011D, 0x000670030401E21, 0x00067003060011F,
  0x000670030700121, 0x000670030C001E7, 0x000670032700123, 0x000680030200125, 0x000680030701E23,
  0x000680030801E27, 0x000680030C0021F, 0x000680032301E25, 0x000680032701E29, 0x000680032E01E2B,
  0x000680033101E96, 0x0006900300000EC, 0x0006900301000ED, 0x0006900302000EE, 0x000690030300129,
  0x00069003040012B, 0x00069003060012D, 0x0006900308000EF, 0x000690030901EC9, 0x000690030C001D0,
  0x000690030F00209, 0x00069003110020B, 0x000690032301ECB, 0x00069003280012F, 0x000690033001E2D,
  0x0006A0030200135, 0x0006A0030C001F0, 0x0006B0030101E31, 0x0006B0030C001E9, 0x0006B0032301E33,
  0x0006B0032700137, 0x0006B0033101E35, 0x0006C003010013A, 0x0006C0030C0013E, 0x0006C0032301E37,
  0x0006C003270013C, 0x0006C0032D01E3D, 0x0006C0033101E3B, 0x0006D0030101E3F, 0x0006D0030701E41,
  0x0006D0032301E43, 0x0006E00300001F9, 0x0006E0030100144, 0x0006E00303000F1, 0x0006E0030701E45,
  0x0006E0030C00148, 0x0006E0032301E47, 0x0006E0032700146, 0x0006E0032D01E4B, 0x0006E0033101E49,
  0x0006F00300000F2, 0x0006F00301000F3, 0x0006F00302000F4, 0x0006F00303000F5, 0x0006F003040014D,
  0x0006F003060014F, 0x0006F003070022F, 0x0006F00308000F6, 0x0006F0030901ECF, 0x0006F0030B00151,
  0x0006F0030C001D2, 0x0006F0030F0020D, 0x0006F003110020F, 0x0006F0031B001A1, 0x0006F0032301ECD,
  0x0006F00328001EB, 0x000700030101E55, 0x000700030701E57, 0x000720030100155, 0x000720030701E59,
  0x000720030C00159, 0x000720030F00211, 0x000720031100213, 0x000720032301E5B, 0x000720032700157,
  0x000720033101E5F, 0x00073003010015B, 0x00073003020015D, 0x000730030701E61, 0x000730030C00161,
  0x000730032301E63, 0x000730032600219, 0x00073003270015F, 0x000740030701E6B, 0x000740030801E97,
  0x000740030C00165, 0x000740032301E6D, 0x00074003260021B, 0x000740032700163, 0x000740032D01E71,
  0x000740033101E6F, 0x0007500300000F9, 0x0007500301000FA, 0x0007500302000FB, 0x000750030300169,
  0x00075003040016B, 0x00075003060016D, 0x0007500308000FC, 0x000750030901EE7, 0x000750030A0016F,
  0x000750030B00171, 0x000750030C001D4, 0x000750030F00215, 0x000750031100217, 0x000750031B001B0,
  0x000750032301EE5, 0x000750032401E73, 0x000750032800173, 0x000750032D01E77, 0x000750033001E75,
  0x000760030301E7D, 0x000760032301E7F, 0x000770030001E81, 0x000770030101E83, 0x000770030200175,
  0x000770030701E87, 0x000770030801E85, 0x000770030A01E98, 0x000770032301E89, 0x000780030701E8B,
  0x000780030801E8D, 0x000790030001EF3, 0x0007900301000FD, 0x000790030200177, 0x000790030301EF9,
  0x000790030400233, 0x000790030701E8F, 0x0007900308000FF, 0x000790030901EF7, 0x000790030A01E99,
  0x000790032301EF5, 0x0007A003010017A, 0x0007A0030201E91, 0x0007A003070017C, 0x0007A0030C0017E,
  0x0007A0032301E93, 0x0007A0033101E95, 0x000A80030001FED, 0x000A80030100385, 0x000A80034201FC1,
  0x000C20030001EA6, 0x000C20030101EA4, 0x000C20030301EAA, 0x000C20030901EA8, 0x000C400304001DE,
  0x000C500301001FA, 0x000C600301001FC, 0x000C600304001E2, 0x000C70030101E08, 0x000CA0030001EC0,
  0x000CA0030101EBE, 0x000CA0030301EC4, 0x000CA0030901EC2, 0x000CF0030101E2E, 0x000D40030001ED2,
  0x000D40030101ED0, 0x000D40030301ED6, 0x000D40030901ED4, 0x000D50030101E4C, 0x000D5003040022C,
  0x000D50030801E4E, 0x000D6003040022A, 0x000D800301001FE, 0x000DC00300001DB, 0x000DC00301001D7,
  0x000DC00304001D5, 0x000DC0030C001D9, 0x000E20030001EA7, 0x000E20030101EA5, 0x000E20030301EAB,
  0x000E20030901EA9, 0x000E400304001DF, 0x000E500301001FB, 0x000E600301001FD, 0x000E600304001E3,
  0x000E70030101E09, 0x000EA0030001EC1, 0x000EA0030101EBF, 0x000EA0030301EC5, 0x000EA0030901EC3,
  0x000EF0030101E2F, 0x000F40030001ED3, 0x000F40030101ED1, 0x000F40030301ED7, 0x000F40030901ED5,
  0x000F50030101E4D, 0x000F5003040022D, 0x000F50030801E4F, 0x000F6003040022B, 0x000F800301001FF,
  0x000FC00300001DC, 0x000FC00301001D8, 0x000FC00304001D6, 0x000FC0030C001DA, 0x001020030001EB0,
  0x001020030101EAE, 0x001020030301EB4, 0x001020030901EB2, 0x001030030001EB1, 0x001030030101EAF,
  0x001030030301EB5, 0x001030030901EB3, 0x001120030001E14, 0x001120030101E16, 0x001130030001E15,
  0x001130030101E17, 0x0014C0030001E50, 0x0014C0030101E52, 0x0014D0030001E51, 0x0014D0030101E53,
  0x0015A0030701E64, 0x0015B0030701E65, 0x001600030701E66, 0x001610030701E67, 0x001680030101E78,
  0x001690030101E79, 0x0016A0030801E7A, 0x0016B0030801E7B, 0x0017F0030701E9B, 0x001A00030001EDC,
  0x001A00030101EDA, 0x001A00030301EE0, 0x001A00030901EDE, 0x001A00032301EE2, 0x001A10030001EDD,
  0x001A10030101EDB, 0x001A10030301EE1, 0x001A10030901EDF, 0x001A10032301EE3, 0x001AF0030001EEA,
  0x001AF0030101EE8, 0x001AF0030301EEE, 0x001AF0030901EEC, 0x001AF0032301EF0, 0x001B00030001EEB,
  0x001B00030101EE9, 0x001B00030301EEF, 0x001B00030901EED, 0x001B00032301EF1, 0x001B70030C001EE,
  0x001EA00304001EC, 0x001EB00304001ED, 0x0022600304001E0, 0x0022700304001E1, 0x002280030601E1C,
  0x002290030601E1D, 0x0022E0030400230, 0x0022F0030400231, 0x002920030C001EF, 0x003910030001FBA,
  0x003910030100386, 0x003910030401FB9, 0x003910030601FB8, 0x003910031301F08, 0x003910031401F09,
  0x003910034501FBC, 0x003950030001FC8, 0x003950030100388, 0x003950031301F18, 0x003950031401F19,
  0x003970030001FCA, 0x003970030100389, 0x003970031301F28, 0x003970031401F29, 0x003970034501FCC,
  0x003990030001FDA, 0x00399003010038A, 0x003990030401FD9, 0x003990030601FD8, 0x0039900308003AA,
  0x003990031301F38, 0x003990031401F39, 0x0039F0030001FF8, 0x0039F003010038C, 0x0039F0031301F48,
  0x0039F0031401F49, 0x003A10031401FEC, 0x003A50030001FEA, 0x003A5003010038E, 0x003A50030401FE9,
  0x003A50030601FE8, 0x003A500308003AB, 0x003A50031401F59, 0x003A90030001FFA, 0x003A9003010038F,
  0x003A90031301F68, 0x003A90031401F69, 0x003A90034501FFC, 0x003AC0034501FB4, 0x003AE0034501FC4,
  0x003B10030001F70, 0x003B100301003AC, 0x003B10030401FB1, 0x003B10030601FB0, 0x003B10031301F00,
  0x003B10031401F01, 0x003B10034201FB6, 0x003B10034501FB3, 0x003B50030001F72, 0x003B500301003AD,
  0x003B50031301F10, 0x003B50031401F11, 0x003B70030001F74, 0x003B700301003AE, 0x003B70031301F20,
  0x003B70031401F21, 0x003B70034201FC6, 0x003B70034501FC3, 0x003B90030001F76, 0x003B900301003AF,
  0x003B90030401FD1, 0x003B90030601FD0, 0x003B900308003CA, 0x003B90031301F30, 0x003B90031401F31,
  0x003B90034201FD6, 0x003BF0030001F78, 0x003BF00301003CC, 0x003BF0031301F40, 0x003BF0031401F41,
  0x003C10031301FE4, 0x003C10031401FE5, 0x003C50030001F7A, 0x003C500301003CD, 0x003C50030401FE1,
  0x003C50030601FE0, 0x003C500308003CB, 0x003C50031301F50, 0x003C50031401F51, 0x003C50034201FE6,
  0x003C90030001F7C, 0x003C900301003CE, 0x003C90031301F60, 0x003C90031401F61, 0x003C90034201FF6,
  0x003C90034501FF3, 0x003CA0030001FD2, 0x003CA0030100390, 0x003CA0034201FD7, 0x003CB0030001FE2,
  0x003CB00301003B0, 0x003CB0034201FE7, 0x003CE0034501FF4, 0x003D200301003D3, 0x003D200308003D4,
  0x004060030800407, 0x0041000306004D0, 0x0041000308004D2, 0x004130030100403, 0x004150030000400,
  0x0041500306004D6, 0x004150030800401, 0x0041600306004C1, 0x0041600308004DC, 0x0041700308004DE,
  0x00418003000040D, 0x0041800304004E2, 0x004180030600419, 0x0041800308004E4, 0x0041A003010040C,
  0x0041E00308004E6, 0x0042300304004EE, 0x00423003060040E, 0x0042300308004F0, 0x004230030B004F2,
  0x0042700308004F4, 0x0042B00308004F8, 0x0042D00308004EC, 0x0043000306004D1, 0x0043000308004D3,
  0x004330030100453, 0x004350030000450, 0x0043500306004D7, 0x004350030800451, 0x0043600306004C2,
  0x0043600308004DD, 0x0043700308004DF, 0x00438003000045D, 0x0043800304004E3, 0x004380030600439,
  0x0043800308004E5, 0x0043A003010045C, 0x0043E00308004E7, 0x0044300304004EF, 0x00443003060045E,
  0x0044300308004F1, 0x004430030B004F3, 0x0044700308004F5, 0x0044B00308004F9, 0x0044D00308004ED,
  0x004560030800457, 0x004740030F00476, 0x004750030F00477, 0x004D800308004DA, 0x004D900308004DB,
  0x004E800308004EA, 0x004E900308004EB, 0x006270065300622, 0x006270065400623, 0x006270065500625,
  0x006480065400624, 0x0064A0065400626, 0x006C100654006C2, 0x006D200654006D3, 0x006D500654006C0,
  0x009280093C00929, 0x009300093C00931, 0x009330093C00934, 0x009C7009BE009CB, 0x009C7009D7009CC,
  0x00B4700B3E00B4B, 0x00B4700B5600B48, 0x00B4700B5700B4C, 0x00B9200BD700B94, 0x00BC600BBE00BCA,
  0x00BC600BD700BCC, 0x00BC700BBE00BCB, 0x00C4600C5600C48, 0x00CBF00CD500CC0, 0x00CC600CC200CCA,
  0x00CC600CD500CC7, 0x00CC600CD600CC8, 0x00CCA00CD500CCB, 0x00D4600D3E00D4A, 0x00D4600D5700D4C,
  0x00D4700D3E00D4B, 0x00DD900DCA00DDA, 0x00DD900DCF00DDC, 0x00DD900DDF00DDE, 0x00DDC00DCA00DDD,
  0x010250102E01026, 0x01099010BA1109A, 0x0109B010BA1109C, 0x010A5010BA110AB, 0x01131011271112E,
  0x01132011271112F, 0x013470133E1134B, 0x01347013571134C, 0x014B9014B0114BC, 0x014B9014BA114BB,
  0x014B9014BD114BE, 0x015B8015AF115BA, 0x015B9015AF115BB, 0x019350193011938, 0x01B0501B3501B06,
  0x01B0701B3501B08, 0x01B0901B3501B0A, 0x01B0B01B3501B0C, 0x01B0D01B3501B0E, 0x01B1101B3501B12,
  0x01B3A01B3501B3B, 0x01B3C01B3501B3D, 0x01B3E01B3501B40, 0x01B3F01B3501B41, 0x01B4201B3501B43,
  0x01E360030401E38, 0x01E370030401E39, 0x01E5A0030401E5C, 0x01E5B0030401E5D, 0x01E620030701E68,
  0x01E630030701E69, 0x01EA00030201EAC, 0x01EA00030601EB6, 0x01EA10030201EAD, 0x01EA10030601EB7,
  0x01EB80030201EC6, 0x01EB90030201EC7, 0x01ECC0030201ED8, 0x01ECD0030201ED9, 0x01F000030001F02,
  0x01F000030101F04, 0x01F000034201F06, 0x01F000034501F80, 0x01F010030001F03, 0x01F010030101F05,
  0x01F010034201F07, 0x01F010034501F81, 0x01F020034501F82, 0x01F030034501F83, 0x01F040034501F84,
  0x01F050034501F85, 0x01F060034501F86, 0x01F070034501F87, 0x01F080030001F0A, 0x01F080030101F0C,
  0x01F080034201F0E, 0x01F080034501F88, 0x01F090030001F0B, 0x01F090030101F0D, 0x01F090034201F0F,
  0x01F090034501F89, 0x01F0A0034501F8A, 0x01F0B0034501F8B, 0x01F0C0034501F8C, 0x01F0D0034501F8D,
  0x01F0E0034501F8E, 0x01F0F0034501F8F, 0x01F100030001F12, 0x01F100030101F14, 0x01F110030001F13,
  0x01F110030101F15, 0x01F180030001F1A, 0x01F180030101F1C, 0x01F190030001F1B, 0x01F190030101F1D,
  0x01F200030001F22, 0x01F200030101F24, 0x01F200034201F26, 0x01F200034501F90, 0x01F210030001F23,
  0x01F210030101F25, 0x01F210034201F27, 0x01F210034501F91, 0x01F220034501F92, 0x01F230034501F93,
  0x01F240034501F94, 0x01F250034501F95, 0x01F260034501F96, 0x01F270034501F97, 0x01F280030001F2A,
  0x01F280030101F2C, 0x01F280034201F2E, 0x01F280034501F98, 0x01F290030001F2B, 0x01F290030101F2D,
  0x01F290034201F2F, 0x01F290034501F99, 0x01F2A0034501F9A, 0x01F2B0034501F9B, 0x01F2C0034501F9C,
  0x01F2D0034501F9D, 0x01F2E0034501F9E, 0x01F2F0034501F9F, 0x01F300030001F32, 0x01F300030101F34,
  0x01F300034201F36, 0x01F310030001F33, 0x01F310030101F35, 0x01F310034201F37, 0x01F380030001F3A,
  0x01F380030101F3C, 0x01F380034201F3E, 0x01F390030001F3B, 0x01F390030101F3D, 0x01F390034201F3F,
  0x01F400030001F42, 0x01F400030101F44, 0x01F410030001F43, 0x01F410030101F45, 0x01F480030001F4A,
  0x01F480030101F4C, 0x01F490030001F4B, 0x01F490030101F4D, 0x01F500030001F52, 0x01F500030101F54,
  0x01F500034201F56, 0x01F510030001F53, 0x01F510030101F55, 0x01F510034201F57, 0x01F590030001F5B,
  0x01F590030101F5D, 0x01F590034201F5F, 0x01F600030001F62, 0x01F600030101F64, 0x01F600034201F66,
  0x01F600034501FA0, 0x01F610030001F63, 0x01F610030101F65, 0x01F610034201F67, 0x01F610034501FA1,
  0x01F620034501FA2, 0x01F630034501FA3, 0x01F640034501FA4, 0x01F650034501FA5, 0x01F660034501FA6,
  0x01F670034501FA7, 0x01F680030001F6A, 0x01F680030101F6C, 0x01F680034201F6E, 0x01F680034501FA8,
  0x01F690030001F6B, 0x01F690030101F6D, 0x01F690034201F6F, 0x01F690034501FA9, 0x01F6A0034501FAA,
  0x01F6B0034501FAB, 0x01F6C0034501FAC, 0x01F6D0034501FAD, 0x01F6E0034501FAE, 0x01F6F0034501FAF,
  0x01F700034501FB2, 0x01F740034501FC2, 0x01F7C0034501FF2, 0x01FB60034501FB7, 0x01FBF0030001FCD,
  0x01FBF0030101FCE, 0x01FBF0034201FCF, 0x01FC60034501FC7, 0x01FF60034501FF7, 0x01FFE0030001FDD,
  0x01FFE0030101FDE, 0x01FFE0034201FDF, 0x02190003380219A, 0x02192003380219B, 0x0219400338021AE,
  0x021D000338021CD, 0x021D200338021CF, 0x021D400338021CE, 0x022030033802204, 0x022080033802209,
  0x0220B003380220C, 0x022230033802224, 0x022250033802226, 0x0223C0033802241, 0x022430033802244,
  0x022450033802247, 0x022480033802249, 0x0224D003380226D, 0x022610033802262, 0x022640033802270,
  0x022650033802271, 0x022720033802274, 0x022730033802275, 0x022760033802278, 0x022770033802279,
  0x0227A0033802280, 0x0227B0033802281, 0x0227C00338022E0, 0x0227D00338022E1, 0x022820033802284,
  0x022830033802285, 0x022860033802288, 0x022870033802289, 0x0229100338022E2, 0x0229200338022E3,
  0x022A200338022AC, 0x022A800338022AD, 0x022A900338022AE, 0x022AB00338022AF, 0x022B200338022EA,
  0x022B300338022EB, 0x022B400338022EC, 0x022B500338022ED, 0x030460309903094, 0x0304B030990304C,
  0x0304D030990304E, 0x0304F0309903050, 0x030510309903052, 0x030530309903054, 0x030550309903056,
  0x030570309903058, 0x03059030990305A, 0x0305B030990305C, 0x0305D030990305E, 0x0305F0309903060,
  0x030610309903062, 0x030640309903065, 0x030660309903067, 0x030680309903069, 0x0306F0309903070,
  0x0306F0309A03071, 0x030720309903073, 0x030720309A03074, 0x030750309903076, 0x030750309A03077,
  0x030780309903079, 0x030780309A0307A, 0x0307B030990307C, 0x0307B0309A0307D, 0x0309D030990309E,
  0x030A603099030F4, 0x030AB03099030AC, 0x030AD03099030AE, 0x030AF03099030B0, 0x030B103099030B2,
  0x030B303099030B4, 0x030B503099030B6, 0x030B703099030B8, 0x030B903099030BA, 0x030BB03099030BC,
  0x030BD03099030BE, 0x030BF03099030C0, 0x030C103099030C2, 0x030C403099030C5, 0x030C603099030C7,
  0x030C803099030C9, 0x030CF03099030D0, 0x030CF0309A030D1, 0x030D203099030D3, 0x030D20309A030D4,
  0x030D503099030D6, 0x030D50309A030D7, 0x030D803099030D9, 0x030D80309A030DA, 0x030DB03099030DC,
  0x030DB0309A030DD, 0x030EF03099030F7, 0x030F003099030F8, 0x030F103099030F9, 0x030F203099030FA,
  0x030FD03099030FE]

def classes : Array Nat := #[
  0x0030000314E6, 0x0031500315E8, 0x0031600319DC, 0x0031A0031AE8, 0x0031B0031BD8, 0x0031C00320DC,
  0x0032100322CA, 0x0032300326DC, 0x0032700328CA, 0x0032900333DC, 0x003340033801, 0x003390033CDC,
  0x0033D00344E6, 0x0034500345F0, 0x0034600346E6, 0x0034700349DC, 0x0034A0034CE6, 0x0034D0034EDC,
  0x0035000352E6, 0x0035300356DC, 0x0035700357E6, 0x0035800358E8, 0x003590035ADC, 0x0035B0035BE6,
  0x0035C0035CE9, 0x0035D0035EEA, 0x0035F0035FE9, 0x0036000361EA, 0x0036200362E9, 0x003630036FE6,
  0x0048300487E6, 0x0059100591DC, 0x0059200595E6, 0x0059600596DC, 0x0059700599E6, 0x0059A0059ADE,
  0x0059B0059BDC, 0x0059C005A1E6, 0x005A2005A7DC, 0x005A8005A9E6, 0x005AA005AADC, 0x005AB005ACE6,
  0x005AD005ADDE, 0x005AE005AEE4, 0x005AF005AFE6, 0x005B0005B00A, 0x005B1005B10B, 0x005B2005B20C,
  0x005B3005B30D, 0x005B4005B40E, 0x005B5005B50F, 0x005B6005B610, 0x005B7005B711, 0x005B8005B812,
  0x005B9005BA13, 0x005BB005BB14, 0x005BC005BC15, 0x005BD005BD16, 0x005BF005BF17, 0x005C1005C118,
  0x005C2005C219, 0x005C4005C4E6, 0x005C5005C5DC, 0x005C7005C712, 0x0061000617E6, 0x00618006181E,
  0x00619006191F, 0x0061A0061A20, 0x0064B0064B1B, 0x0064C0064C1C, 0x0064D0064D1D, 0x0064E0064E1E,
  0x0064F0064F1F, 0x006500065020, 0x006510065121, 0x006520065222, 0x0065300654E6, 0x0065500656DC,
  0x006570065BE6, 0x0065C0065CDC, 0x0065D0065EE6, 0x0065F0065FDC, 0x006700067023, 0x006D6006DCE6,
  0x006DF006E2E6, 0x006E3006E3DC, 0x006E4006E4E6, 0x006E7006E8E6, 0x006EA006EADC, 0x006EB006ECE6,
  0x006ED006EDDC, 0x007110071124, 0x0073000730E6, 0x0073100731DC, 0x0073200733E6, 0x0073400734DC,
  0x0073500736E6, 0x0073700739DC, 0x0073A0073AE6, 0x0073B0073CDC, 0x0073D0073DE6, 0x0073E0073EDC,
  0x0073F00741E6, 0x0074200742DC, 0x0074300743E6, 0x0074400744DC, 0x0074500745E6, 0x0074600746DC,
  0x0074700747E6, 0x0074800748DC, 0x007490074AE6, 0x007EB007F1E6, 0x007F2007F2DC, 0x007F3007F3E6,
  0x007FD007FDDC, 0x0081600819E6, 0x0081B00823E6, 0x0082500827E6, 0x008290082DE6, 0x008590085BDC,
  0x0089800898E6, 0x008990089BDC, 0x0089C0089FE6, 0x008CA008CEE6, 0x008CF008D3DC, 0x008D4008E1E6,
  0x008E3008E3DC, 0x008E4008E5E6, 0x008E6008E6DC, 0x008E7008E8E6, 0x008E9008E9DC, 0x008EA008ECE6,
  0x008ED008EFDC, 0x008F0008F01B, 0x008F1008F11C, 0x008F2008F21D, 0x008F3008F5E6, 0x008F6008F6DC,
  0x008F7008F8E6, 0x008F9008FADC, 0x008FB008FFE6, 0x0093C0093C07, 0x0094D0094D09, 0x0095100951E6,
  0x0095200952DC, 0x0095300954E6, 0x009BC009BC07, 0x009CD009CD09, 0x009FE009FEE6, 0x00A3C00A3C07,
  0x00A4D00A4D09, 0x00ABC00ABC07, 0x00ACD00ACD09, 0x00B3C00B3C07, 0x00B4D00B4D09, 0x00BCD00BCD09,
  0x00C3C00C3C07, 0x00C4D00C4D09, 0x00C5500C5554, 0x00C5600C565B, 0x00CBC00CBC07, 0x00CCD00CCD09,
  0x00D3B00D3C09, 0x00D4D00D4D09, 0x00DCA00DCA09, 0x00E3800E3967, 0x00E3A00E3A09, 0x00E4800E4B6B,
  0x00EB800EB976, 0x00EBA00EBA09, 0x00EC800ECB7A, 0x00F1800F19DC, 0x00F3500F35DC, 0x00F3700F37DC,
  0x00F3900F39D8, 0x00F7100F7181, 0x00F7200F7282, 0x00F7400F7484, 0x00F7A00F7D82, 0x00F8000F8082,
  0x00F8200F83E6, 0x00F8400F8409, 0x00F8600F87E6, 0x00FC600FC6DC, 0x010370103707, 0x010390103A09,
  0x0108D0108DDC, 0x0135D0135FE6, 0x017140171509, 0x017340173409, 0x017D2017D209, 0x017DD017DDE6,
  0x018A9018A9E4, 0x0193901939DE, 0x0193A0193AE6, 0x0193B0193BDC, 0x01A1701A17E6, 0x01A1801A18DC,
  0x01A6001A6009, 0x01A7501A7CE6, 0x01A7F01A7FDC, 0x01AB001AB4E6, 0x01AB501ABADC, 0x01ABB01ABCE6,
  0x01ABD01ABDDC, 0x01ABF01AC0DC, 0x01AC101AC2E6, 0x01AC301AC4DC, 0x01AC501AC9E6, 0x01ACA01ACADC,
  0x01ACB01ACEE6, 0x01B3401B3407, 0x01B4401B4409, 0x01B6B01B6BE6, 0x01B6C01B6CDC, 0x01B6D01B73E6,
  0x01BAA01BAB09, 0x01BE601BE607, 0x01BF201BF309, 0x01C3701C3707, 0x01CD001CD2E6, 0x01CD401CD401,
  0x01CD501CD9DC, 0x01CDA01CDBE6, 0x01CDC01CDFDC, 0x01CE001CE0E6, 0x01CE201CE801, 0x01CED01CEDDC,
  0x01CF401CF4E6, 0x01CF801CF9E6, 0x01DC001DC1E6, 0x01DC201DC2DC, 0x01DC301DC9E6, 0x01DCA01DCADC,
  0x01DCB01DCCE6, 0x01DCD01DCDEA, 0x01DCE01DCED6, 0x01DCF01DCFDC, 0x01DD001DD0CA, 0x01DD101DF5E6,
  0x01DF601DF6E8, 0x01DF701DF8E4, 0x01DF901DF9DC, 0x01DFA01DFADA, 0x01DFB01DFBE6, 0x01DFC01DFCE9,
  0x01DFD01DFDDC, 0x01DFE01DFEE6, 0x01DFF01DFFDC, 0x020D0020D1E6, 0x020D2020D301, 0x020D4020D7E6,
  0x020D8020DA01, 0x020DB020DCE6, 0x020E1020E1E6, 0x020E5020E601, 0x020E7020E7E6, 0x020E8020E8DC,
  0x020E9020E9E6, 0x020EA020EB01, 0x020EC020EFDC, 0x020F0020F0E6, 0x02CEF02CF1E6, 0x02D7F02D7F09,
  0x02DE002DFFE6, 0x0302A0302ADA, 0x0302B0302BE4, 0x0302C0302CE8, 0x0302D0302DDE, 0x0302E0302FE0,
  0x030990309A08, 0x0A66F0A66FE6, 0x0A6740A67DE6, 0x0A69E0A69FE6, 0x0A6F00A6F1E6, 0x0A8060A80609,
  0x0A82C0A82C09, 0x0A8C40A8C409, 0x0A8E00A8F1E6, 0x0A92B0A92DDC, 0x0A9530A95309, 0x0A9B30A9B307,
  0x0A9C00A9C009, 0x0AAB00AAB0E6, 0x0AAB20AAB3E6, 0x0AAB40AAB4DC, 0x0AAB70AAB8E6, 0x0AABE0AABFE6,
  0x0AAC10AAC1E6, 0x0AAF60AAF609, 0x0ABED0ABED09, 0x0FB1E0FB1E1A, 0x0FE200FE26E6, 0x0FE270FE2DDC,
  0x0FE2E0FE2FE6, 0x101FD101FDDC, 0x102E0102E0DC, 0x103761037AE6, 0x10A0D10A0DDC, 0x10A0F10A0FE6,
  0x10A3810A38E6, 0x10A3910A3901, 0x10A3A10A3ADC, 0x10A3F10A3F09, 0x10AE510AE5E6, 0x10AE610AE6DC,
  0x10D2410D27E6, 0x10EAB10EACE6, 0x10EFD10EFFDC, 0x10F4610F47DC, 0x10F4810F4AE6, 0x10F4B10F4BDC,
  0x10F4C10F4CE6, 0x10F4D10F50DC, 0x10F8210F82E6, 0x10F8310F83DC, 0x10F8410F84E6, 0x10F8510F85DC,
  0x110461104609, 0x110701107009, 0x1107F1107F09, 0x110B9110B909, 0x110BA110BA07, 0x1110011102E6,
  0x111331113409, 0x111731117307, 0x111C0111C009, 0x111CA111CA07, 0x112351123509, 0x112361123607,
  0x112E9112E907, 0x112EA112EA09, 0x1133B1133C07, 0x1134D1134D09, 0x113661136CE6, 0x1137011374E6,
  0x114421144209, 0x114461144607, 0x1145E1145EE6, 0x114C2114C209, 0x114C3114C307, 0x115BF115BF09,
  0x115C0115C007, 0x1163F1163F09, 0x116B6116B609, 0x116B7116B707, 0x1172B1172B09, 0x118391183909,
  0x1183A1183A07, 0x1193D1193E09, 0x119431194307, 0x119E0119E009, 0x11A3411A3409, 0x11A4711A4709,
  0x11A9911A9909, 0x11C3F11C3F09, 0x11D4211D4207, 0x11D4411D4509, 0x11D9711D9709, 0x11F4111F4209,
  0x16AF016AF401, 0x16B3016B36E6, 0x16FF016FF106, 0x1BC9E1BC9E01, 0x1D1651D166D8, 0x1D1671D16901,
  0x1D16D1D16DE2, 0x1D16E1D172D8, 0x1D17B1D182DC, 0x1D1851D189E6, 0x1D18A1D18BDC, 0x1D1AA1D1ADE6,
  0x1D2421D244E6, 0x1E0001E006E6, 0x1E0081E018E6, 0x1E01B1E021E6, 0x1E0231E024E6, 0x1E0261E02AE6,
  0x1E08F1E08FE6, 0x1E1301E136E6, 0x1E2AE1E2AEE6, 0x1E2EC1E2EFE6, 0x1E4EC1E4EDE8, 0x1E4EE1E4EEDC,
  0x1E4EF1E4EFE6, 0x1E8D01E8D6DC, 0x1E9441E949E6, 0x1E94A1E94A07]

def joining : Array Nat := #[
  0x0030000304, 0x003060030C, 0x0030F0030F, 0x0031100311, 0x0031300314, 0x0031B0031B,
  0x0032300328, 0x0032D0032E, 0x0033000331, 0x0033800338, 0x0034200342, 0x0034500345,
  0x0065300655, 0x0093C0093C, 0x009BE009BE, 0x009D7009D7, 0x00B3E00B3E, 0x00B5600B57,
  0x00BBE00BBE, 0x00BD700BD7, 0x00C5600C56, 0x00CC200CC2, 0x00CD500CD6, 0x00D3E00D3E,
  0x00D5700D57, 0x00DCA00DCA, 0x00DCF00DCF, 0x00DDF00DDF, 0x0102E0102E, 0x0116101175,
  0x011A8011C2, 0x01B3501B35, 0x030990309A, 0x110BA110BA, 0x1112711127, 0x1133E1133E,
  0x1135711357, 0x114B0114B0, 0x114BA114BA, 0x114BD114BD, 0x115AF115AF, 0x1193011930]

def compatible : Array Nat := #[
  0x000A8000A801, 0x000AF000AF01, 0x000B4000B401, 0x000B8000B801, 0x001C4001C601, 0x002D8002DD01,
  0x0037A0037A01, 0x003840038401, 0x003850038502, 0x00F7700F7702, 0x00F7900F7902, 0x01FBD01FBD01,
  0x01FBF01FC001, 0x01FC101FC102, 0x01FCD01FCF02, 0x01FDD01FDF02, 0x01FED01FEE02, 0x01FFD01FFE01,
  0x020170201701, 0x0203E0203E01, 0x0309B0309C01, 0x031330313311, 0x031350313611, 0x0313A0313F11,
  0x0314F0316311, 0x0326E0327E01, 0x033040330401, 0x033070330701, 0x033100331001, 0x0331E0331E01,
  0x033210332101, 0x033320333201, 0x0333B0333B01, 0x033400334001, 0x0334B0334B01, 0x0334E0334E01,
  0x0FBA40FBA501, 0x0FBB00FBB101, 0x0FC5B0FC5D01, 0x0FC5E0FC6302, 0x0FC900FC9001, 0x0FCD90FCD901,
  0x0FCF20FCF402, 0x0FD3C0FD3D01, 0x0FE490FE4C01, 0x0FE700FE7201, 0x0FE740FE7401, 0x0FE760FE7F01,
  0x0FE810FE8C01, 0x0FEF50FEFA01, 0x0FF9E0FF9F11, 0x0FFA30FFA311, 0x0FFA50FFA611, 0x0FFAA0FFAF11,
  0x0FFC20FFC711, 0x0FFCA0FFCF11, 0x0FFD20FFD711, 0x0FFDA0FFDC11, 0x0FFE30FFE301, 0x1F2131F21301]

end RegCode.Text.Canonical
